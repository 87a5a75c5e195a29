import Dmm.Epoll.Delivery

/-!
# Requested events

Which events a poll reports for an item, with `EPOLL_CTL_ADD` and `EPOLL_CTL_MOD` by
`nsep_epctl_triggle`. A callback masks its events with those requested unless a poll has the list:
then it stores all of them. A modification changes the requested events before the module of the
item is asked, and the events stored until then are only replaced if the item has one module and
this answers.

An item is there from the start as `nsep_insert_node` makes it; the rest of an addition, like a
modification, runs under `ep->sem`, which a poll holds after its first check.
-/

namespace Dmm.Epoll

open Dmm.Mask

/-- Where a thread is in `nsep_epctl_triggle`. -/
inductive Ctl
  | none
  | triggle (epi : Nat) (triggleOps : Eventpoll.Triggle)
  /-- It has noted the answer and is to call `nsep_ctl_event_add`. -/
  | noted (epi : Nat) (triggleOps : Eventpoll.Triggle)
  deriving DecidableEq, Repr

/-- An eventpoll with a poll and a thread that changes it. -/
structure Controlled where
  ep : Eventpoll
  poll : Poll
  ctl : Ctl

/-- What can happen. -/
inductive Step
  | poll (maxevents : Nat)
  | advance (got : UInt32)
  | callback (epi : Nat) (events : UInt32)
  | add (epi : Nat)
  | mod (epi : Nat) (events : UInt32) (data : UInt64)
  /-- A module's `ep_ctl` returns events, or an error. -/
  | triggle (ret : Option UInt32)
  | eventAdd
  | finish
  deriving DecidableEq, Repr

/-- `NSEP_SMOD_MAX`, `NSTACK_MAX_MODULE_NUM` -/
def smodMax : Int := 8

namespace Controlled

/-- `ep->sem` can be taken. -/
def free (s : Controlled) : Bool :=
  s.ctl = .none ∧ (s.poll.pc = .returned ∨ s.poll.pc = .start)

/-- The poll can take a step: it needs `ep->sem` to go on after its first check. -/
def canAdvance (s : Controlled) : Bool :=
  s.poll.pc ≠ .returned ∧ (s.ctl = .none ∨ s.poll.pc = .start ∧ s.ep.hlistEmpty)

/-- One step. -/
def act (s : Controlled) : Step → Option Controlled
  | .poll maxevents =>
    if s.poll.pc = .returned ∧ 1 ≤ maxevents then some { s with poll := .call maxevents } else none
  | .advance got =>
    if s.canAdvance then
      some { s with ep := (pollStep s.ep s.poll got).1, poll := (pollStep s.ep s.poll got).2 }
    else none
  | .callback epi events =>
    if s.poll.pc = .merge then none else some { s with ep := s.ep.eventCallback epi events }
  | .add epi => if s.free then some { s with ctl := .triggle epi .add } else none
  | .mod epi events data =>
    if s.free then
      some { s with ep := s.ep.modify epi
                      ({ · with events := events ||| epollErrHup, data := data })
                    ctl := .triggle epi .mod }
    else none
  | .triggle ret =>
    match s.ctl with
    | .triggle epi triggleOps =>
      if (s.ep.item epi).rmidx ≥ smodMax then some { s with ctl := .none }
      else
        match ret with
        | some events =>
          -- the only module of an item replaces what was stored, the others add to it
          some { s with ep := s.ep.modify epi fun item =>
                          { item with revents := if item.rmidx ≥ 0 then events
                                                 else item.revents ||| events }
                        ctl := .noted epi triggleOps }
        | none => some (if (s.ep.item epi).rmidx ≥ 0 then { s with ctl := .none } else s)
    | _ => none
  | .eventAdd =>
    match s.ctl with
    | .noted epi triggleOps =>
      some { s with ep := s.ep.ctlEventAdd epi triggleOps (s.ep.item epi).revents
                    ctl := if (s.ep.item epi).rmidx ≥ 0 then .none else .triggle epi triggleOps }
    | _ => none
  | .finish =>
    match s.ctl with
    | .triggle epi _ => if (s.ep.item epi).rmidx < 0 then some { s with ctl := .none } else none
    | _ => none

/-- The items as an addition makes them. -/
def fresh (events : Nat → UInt32) (data : Nat → UInt64) (rmidx : Nat → Int) : Controlled :=
  ⟨(Sys.fresh (fun i => events i ||| epollErrHup) data rmidx).ep, .none, .none⟩

/-- Without the record of what was delivered. -/
def toSys (s : Controlled) : Sys := ⟨s.ep, s.poll, fun _ => 0⟩

/-- The report that the next step of the poll writes. -/
def written (s : Controlled) (got : UInt32) : Option Report := s.toSys.written got

/-- A single module is asked about the item, and its answer replaces the stored events. -/
def Replaced (ep : Eventpoll) (epi : Nat) : Prop :=
  0 ≤ (ep.item epi).rmidx ∧ (ep.item epi).rmidx < smodMax

/-- Only requested events are stored: a callback that finds the list detached brings no others, a
module returns no others, and after a modification the stored ones are requested or replaced. -/
def Masked (s : Controlled) : Step → Prop
  | .advance got =>
    ∀ epi, s.poll.head = .rdllink epi → Within got (s.ep.item epi).events
  | .callback epi events =>
    (s.ep.item epi).events &&& events = 0 ∨ s.ep.ovflist = .unactive ∨
      Within events (s.ep.item epi).events
  | .mod epi events _ =>
    Within (s.ep.item epi).revents (events ||| epollErrHup) ∨ Replaced s.ep epi
  | .triggle ret =>
    ∀ epi triggleOps, s.ctl = .triggle epi triggleOps →
      match ret with
      | some events => Within events (s.ep.item epi).events
      | none => Within (s.ep.item epi).revents (s.ep.item epi).events
  | _ => True

end Controlled

section

variable {s s' : Controlled} {v v' : Lists} {got : UInt32} {x : Nat}

/-! ## What the steps do to the items -/

/-- A step of a poll clears the events of the item it examines and moves those of the item it
merges; it leaves the other items alone. -/
theorem pollStep_item (ep : Eventpoll) (poll : Poll) (got : UInt32) (i : Nat) :
    (pollStep ep poll got).1.item i =
      if poll.pc = .walk ∧ poll.head = .rdllink i then { ep.item i with revents := 0 }
      else if poll.pc = .merge ∧ poll.nepi = .epi i then
        { ep.item i with revents := (ep.item i).revents ||| (ep.item i).ovfRevents
                         ovfRevents := 0
                         next := .unactive }
      else ep.item i := by
  unfold pollStep
  cases pc : poll.pc with
  | returned | start | locked | detach => simp [Eventpoll.detach, Eventpoll.hlistInit,
      Eventpoll.initNode]
  | walk => grind [ep.examine_item]
  | putBack =>
    simp only [Eventpoll.putBack]
    split <;> simp
  | merge =>
    cases next : poll.nepi with
    | epi y =>
      simp only [ep.merge_item y]
      by_cases same : i = y
      · simp [same]
      · simp [same, Ne.symm same]
    | unactive | null => simp

/-- A callback on an item: which events it stores, and where. -/
theorem eventCallback_item (ep : Eventpoll) (x : Nat) (events : UInt32) (i : Nat) :
    ((ep.eventCallback x events).item i).events = (ep.item i).events ∧
      ((ep.eventCallback x events).item i).rmidx = (ep.item i).rmidx ∧
      ((ep.eventCallback x events).item i).revents =
        (if i = x ∧ (ep.item x).events &&& events ≠ 0 ∧ ep.ovflist = .unactive then
          (ep.item i).revents ||| ((ep.item i).events &&& events) else (ep.item i).revents) ∧
      ((ep.eventCallback x events).item i).ovfRevents =
        (if i = x ∧ (ep.item x).events &&& events ≠ 0 ∧ ep.ovflist ≠ .unactive then
          (ep.item i).ovfRevents ||| events else (ep.item i).ovfRevents) := by
  unfold Eventpoll.eventCallback
  by_cases requested : (ep.item x).events &&& events = 0
  · simp [requested]
  by_cases window : ep.ovflist = .unactive
  · by_cases same : i = x <;> cases linked : ep.linked (.rdllink x) <;>
      simp [requested, window, same, Eventpoll.modify, Eventpoll.hlistAddTail, Eventpoll.initNode,
        Eventpoll.semPost]
  · by_cases same : i = x <;> by_cases free : (ep.item x).next = .unactive <;>
      simp [requested, window, same, free, Eventpoll.modify]

theorem ctlEventAdd_item (ep : Eventpoll) (triggleOps : Eventpoll.Triggle) (events : UInt32) :
    (ep.ctlEventAdd x triggleOps events).item = ep.item := by
  unfold Eventpoll.ctlEventAdd
  cases triggleOps with
  | add =>
    dsimp only
    split
    · exact ep.addUnlinked_item x
    · rfl
  | mod =>
    dsimp only
    split
    · split <;> rfl
    · split
      · unfold Eventpoll.hlistDel
        split
        · dsimp only
          split <;> rfl
        · rfl
      · rfl

/-! ## The lists are well formed -/

theorem Inv.forget {s : Sys} (inv : Inv s v) : Inv { s with pending := fun _ => 0 } v :=
  ⟨inv.held, inv.overflow, inv.closed, fun _ => zero_within _, inv.bounded⟩

theorem Inv.modify (inv : Inv s.toSys v) (f : Epitem → Epitem)
    (next : ∀ item, (f item).next = item.next)
    (ovf : ∀ item, (f item).ovfRevents = item.ovfRevents) (ctl : Ctl) :
    Inv (Controlled.toSys { s with ep := s.ep.modify x f, ctl := ctl }) v := by
  have item (i : Nat) : ((s.ep.modify x f).item i).next = (s.ep.item i).next ∧
      ((s.ep.modify x f).item i).ovfRevents = (s.ep.item i).ovfRevents := by
    simp only [Eventpoll.modify]
    grind
  refine ⟨inv.held.congr rfl rfl rfl, ?_, inv.closed, fun _ => zero_within _, inv.bounded⟩
  exact inv.overflow.congr (fun i => (item i).1) fun i => (item i).2

theorem Inv.controlled_advance (inv : Inv s.toSys v) (taken : s.act (.advance got) = some s') :
    ∃ v', Inv s'.toSys v' ∧ Advances s.toSys got v v' := by
  obtain ⟨can, rfl⟩ := of_guarded taken
  have running : s.poll.pc ≠ .returned := (of_decide_eq_true can).1
  have step : s.toSys.act (.advance got) = some
      { ep := (pollStep s.ep s.poll got).1
        poll := (pollStep s.ep s.poll got).2
        pending := Sys.shown s.toSys.pending (s.toSys.written got) } := if_neg running
  obtain ⟨v', after, advances⟩ := inv.advance step
  exact ⟨v', after.forget, advances⟩

/-- While a thread has `ep->sem` to change items no poll has the list. -/
theorem outside_of_start {poll : Poll} (place : poll.pc = .returned ∨ poll.pc = .start) :
    poll.pc.window = false := by
  rcases place with pc | pc <;> rw [pc] <;> rfl

/-- `nsep_ctl_event_add` by a thread that has `ep->sem` keeps the lists. -/
theorem Inv.eventAdd (inv : Inv s.toSys v) (place : s.poll.pc = .returned ∨ s.poll.pc = .start)
    (triggleOps : Eventpoll.Triggle) (events : UInt32) (ctl : Ctl) :
    ∃ v', Inv (Controlled.toSys { s with ep := s.ep.ctlEventAdd x triggleOps events
                                         ctl := ctl }) v' := by
  have outside := outside_of_start place
  have unlocked : s.toSys.poll.pc ≠ .merge := by
    simp only [Controlled.toSys]
    grind
  have rest := (inv.quiet outside).1
  have safe : s.toSys.Safe (.ctl x triggleOps events) := by
    cases triggleOps with
    | add => trivial
    | mod =>
      cases linked : s.ep.linked (.rdllink x) with
      | false => exact Or.inr (Or.inl linked)
      | true =>
        refine Or.inr (Or.inr (Or.inr ⟨⟨v.ready, inv.held.ready, ?_⟩, zero_within _⟩))
        simpa [rest] using (inv.held.linked x).mp linked
  obtain ⟨v', after⟩ := inv.ctl safe (if_neg unlocked)
  exact ⟨v', after⟩

/-! ## Only requested events are stored -/

/-- What is stored for an item was requested, or is about to be replaced. -/
structure Requested (s : Controlled) (v : Lists) : Prop where
  inv : Inv s.toSys v
  exclusive : s.ctl ≠ .none → s.poll.pc = .returned ∨ s.poll.pc = .start
  ovf : ∀ i, Within (s.ep.item i).ovfRevents (s.ep.item i).events
  stored : ∀ i, Within (s.ep.item i).revents (s.ep.item i).events ∨
    (∃ triggleOps, s.ctl = .triggle i triggleOps) ∧ Controlled.Replaced s.ep i

theorem Requested.clean (requested : Requested s v)
    (asking : ∀ i triggleOps, s.ctl ≠ .triggle i triggleOps) (i : Nat) :
    Within (s.ep.item i).revents (s.ep.item i).events := by grind [requested.stored]

theorem Requested.clean_of_ne (requested : Requested s v) {triggleOps : Eventpoll.Triggle}
    (busy : s.ctl = .triggle x triggleOps) {i : Nat} (other : i ≠ x) :
    Within (s.ep.item i).revents (s.ep.item i).events := by grind [requested.stored]

theorem Requested.clean_of_not (requested : Requested s v) {i : Nat}
    (keeps : ¬ Controlled.Replaced s.ep i) : Within (s.ep.item i).revents (s.ep.item i).events := by
  grind [requested.stored]

theorem Requested.advance (requested : Requested s v) (taken : s.act (.advance got) = some s') :
    ∃ v', Requested s' v' := by
  obtain ⟨v', inv, -⟩ := requested.inv.controlled_advance taken
  obtain ⟨can, rfl⟩ := of_guarded taken
  obtain ⟨-, alone⟩ := of_decide_eq_true can
  have item := pollStep_item s.ep s.poll got
  refine ⟨v', inv, ?_, ?_, ?_⟩
  · grind [pollStep]
  · grind [requested.ovf, zero_within]
  · intro i
    show Within ((pollStep s.ep s.poll got).1.item i).revents
      ((pollStep s.ep s.poll got).1.item i).events ∨
        (∃ triggleOps, s.ctl = .triggle i triggleOps) ∧
          Controlled.Replaced (pollStep s.ep s.poll got).1 i
    grind [Controlled.Replaced, zero_within, or_within, requested.ovf, requested.stored]

theorem Requested.callback (requested : Requested s v) {events : UInt32}
    (masked : s.Masked (.callback x events)) (taken : s.act (.callback x events) = some s') :
    ∃ v', Requested s' v' := by
  obtain ⟨unlocked, rfl⟩ := of_unrefused taken
  have step : s.toSys.act (.callback x events) = some (s.toSys.called x events) :=
    if_neg unlocked
  obtain ⟨v', after⟩ := requested.inv.callback step
  refine ⟨v', after.forget, requested.exclusive, ?_, ?_⟩
  · intro i
    obtain ⟨mask, -, -, ovf⟩ := eventCallback_item s.ep x events i
    show Within ((s.ep.eventCallback x events).item i).ovfRevents
      ((s.ep.eventCallback x events).item i).events
    rw [mask, ovf]
    split
    case isFalse => exact requested.ovf i
    case isTrue window =>
      obtain ⟨rfl, some, list⟩ := window
      rcases masked with none | closed | inside
      · exact absurd none some
      · exact absurd closed list
      · exact or_within (requested.ovf i) inside
  · intro i
    obtain ⟨mask, module, revents, -⟩ := eventCallback_item s.ep x events i
    grind [Controlled.Replaced, requested.stored, or_within, and_within_left]

/-- A modification sets the requested events. -/
theorem Requested.mod (requested : Requested s v) {events : UInt32} {data : UInt64}
    (masked : s.Masked (.mod x events data)) (taken : s.act (.mod x events data) = some s') :
    Requested s' v := by
  obtain ⟨free, rfl⟩ := of_guarded taken
  obtain ⟨none, place⟩ := of_decide_eq_true free
  have outside := outside_of_start place
  have noOvf := (requested.inv.quiet outside).2.1
  have clean := requested.clean fun j ops => by simp [none]
  refine ⟨?_, fun _ => place, ?_, ?_⟩
  · apply requested.inv.modify
    · intro item
      rfl
    · intro item
      rfl
  · intro i
    have nothing : (s.ep.item i).ovfRevents = 0 :=
      requested.inv.overflow.clean i (by simp [noOvf])
    simp only [Eventpoll.modify]
    grind [zero_within]
  · intro i
    by_cases same : i = x
    · subst same
      rcases masked with inside | replaced
      · left
        simpa [Eventpoll.modify] using inside
      · right
        simpa [Controlled.Replaced, Eventpoll.modify] using replaced
    · left
      simpa [Eventpoll.modify, same] using clean i

/-- A module answers. -/
theorem Requested.triggle (requested : Requested s v) {ret : Option UInt32}
    (masked : s.Masked (.triggle ret)) (taken : s.act (.triggle ret) = some s') :
    Requested s' v := by
  rw [Controlled.act] at taken
  split at taken
  case h_2 => contradiction
  case h_1 epi triggleOps busy =>
    have place := requested.exclusive (by simp [busy])
    have answer := masked epi triggleOps busy
    split at taken
    case isTrue unknown =>
      -- the module does not exist
      obtain rfl := Option.some.inj taken
      refine ⟨requested.inv, fun _ => place, requested.ovf, ?_⟩
      intro i
      left
      by_cases same : i = epi
      · subst same
        exact requested.clean_of_not fun replaced => absurd unknown (not_le.mpr replaced.2)
      · exact requested.clean_of_ne busy same
    case isFalse known =>
      cases ret with
      | none =>
        obtain rfl := Option.some.inj taken
        split
        · refine ⟨requested.inv, fun _ => place, requested.ovf, ?_⟩
          grind [requested.clean_of_ne]
        · exact requested
      | some events =>
        obtain rfl := Option.some.inj taken
        refine ⟨?_, fun _ => place, ?_, ?_⟩
        · apply requested.inv.modify
          · intro item
            rfl
          · intro item
            rfl
        · simp only [Eventpoll.modify]
          grind [requested.ovf]
        · intro i
          left
          by_cases same : i = epi
          · subst same
            simp only [Eventpoll.modify, Function.update_self]
            split
            · exact answer
            case isFalse several =>
              apply or_within _ answer
              exact requested.clean_of_not fun replaced => absurd replaced.1 several
          · simpa [Eventpoll.modify, same] using requested.clean_of_ne busy same

/-- Every step. -/
theorem Requested.act (requested : Requested s v) {step : Step} (masked : s.Masked step)
    (taken : s.act step = some s') : ∃ v', Requested s' v' := by
  cases step with
  | poll maxevents =>
    have call : s.toSys.act (.poll maxevents) = (s.act (.poll maxevents)).map fun t => t.toSys := by
      simp only [Sys.act, Controlled.act, Controlled.toSys]
      grind
    rw [taken] at call
    have inv := requested.inv.call call
    obtain ⟨-, rfl⟩ := of_guarded taken
    exact ⟨_, inv, fun _ => Or.inr rfl, requested.ovf, requested.stored⟩
  | advance got => exact requested.advance taken
  | callback epi events => exact requested.callback masked taken
  | add epi =>
    obtain ⟨free, rfl⟩ := of_guarded taken
    obtain ⟨none, place⟩ := of_decide_eq_true free
    have clean := requested.clean fun j ops => by simp [none]
    exact ⟨v, requested.inv, fun _ => place, requested.ovf, fun i => Or.inl (clean i)⟩
  | mod epi events data => exact ⟨v, requested.mod masked taken⟩
  | triggle ret => exact ⟨v, requested.triggle masked taken⟩
  | eventAdd =>
    rw [Controlled.act] at taken
    split at taken
    case h_2 => contradiction
    case h_1 epi triggleOps busy =>
      obtain rfl := Option.some.inj taken
      have place := requested.exclusive (by simp [busy])
      have clean := requested.clean fun j ops => by simp [busy]
      obtain ⟨v', after⟩ := requested.inv.eventAdd (x := epi) place triggleOps
        (s.ep.item epi).revents
        (if (s.ep.item epi).rmidx ≥ 0 then .none else .triggle epi triggleOps)
      have item := ctlEventAdd_item (x := epi) s.ep triggleOps (s.ep.item epi).revents
      refine ⟨v', after, fun _ => place, ?_, ?_⟩
      · intro i
        simpa only [item] using requested.ovf i
      · intro i
        left
        simpa only [item] using clean i
  | finish =>
    rw [Controlled.act] at taken
    split at taken
    case h_2 => contradiction
    case h_1 epi triggleOps busy =>
      obtain ⟨several, rfl⟩ := of_guarded taken
      have place := requested.exclusive (by simp [busy])
      refine ⟨v, requested.inv, fun _ => place, requested.ovf, ?_⟩
      intro i
      left
      by_cases same : i = epi
      · subst same
        exact requested.clean_of_not fun replaced => absurd replaced.1 (not_le.mpr several)
      · exact requested.clean_of_ne busy same

/-! ## Before or during a poll -/

/-- The events are in `ovf_revents`, and after the merge in `revents`. -/
def Arrives (s : Controlled) (v : Lists) (x : Nat) (events : UInt32) : Prop :=
  (x ∈ v.ovf ∧ s.poll.pc.window = true ∧ (s.ep.item x).revents = 0 ∧
      (s.ep.item x).ovfRevents = events) ∨
    x ∉ v.ovf ∧ (s.poll.pc = .merge ∨ s.poll.pc = .returned) ∧ (s.ep.item x).revents = events

/-- The events of a callback that fell into a poll, on their way to `revents`. -/
structure Carried (s : Controlled) (v : Lists) (x : Nat) (events : UInt32) : Prop where
  inv : Inv s.toSys v
  apart : x ∉ v.rest
  stage : Arrives s v x events

/-- A step of the poll carries them on. -/
theorem Carried.advance {events : UInt32} (carried : Carried s v x events)
    (taken : s.act (.advance got) = some s') : ∃ v', Carried s' v' x events := by
  obtain ⟨v', inv, advances⟩ := carried.inv.controlled_advance taken
  suffices both : x ∉ v'.rest ∧ Arrives s' v' x events from ⟨v', inv, both.1, both.2⟩
  obtain ⟨can, rfl⟩ := of_guarded taken
  have running : s.poll.pc ≠ .returned := (of_decide_eq_true can).1
  have item := pollStep_item s.ep s.poll got x
  have apart := carried.apart
  have held := carried.inv.held.detached
  have overflow := carried.inv.overflow
  unfold Advances at advances
  have place : s.toSys.poll = s.poll := rfl
  rw [place] at advances
  cases pc : s.poll.pc with
  | returned => exact absurd pc running
  | start | locked | detach =>
    rcases carried.stage with ⟨-, window, -⟩ | ⟨-, late, -⟩
    · simp [pc, Pc.window] at window
    · simp [pc] at late
  | walk =>
    have here : s.toSys.head = s.poll.head := by simp [Sys.head, place, pc]
    rw [here] at held
    have other : s.poll.head ≠ .rdllink x := by
      intro head
      cases rest : v.rest with
      | nil =>
        rw [rest] at held
        cases Eq.trans (Eq.symm head) held
      | cons y r =>
        rw [rest] at held
        have same : x = y := Node.rdllink.inj (head.symm.trans held.1)
        exact apart (by simp [rest, same])
    rw [if_neg (by simp [other]), if_neg (by simp [pc])] at item
    rcases carried.stage with ⟨queued, -, revents, ovf⟩ | ⟨-, late, -⟩
    · simp only [pc] at advances
      refine ⟨?_, Or.inl ⟨advances.1 ▸ queued, ?_, ?_, ?_⟩⟩
      · grind
      · show (pollStep s.ep s.poll got).2.pc.window = true
        unfold pollStep
        simp only [pc]
        cases s.poll.head with
        | rdllink y =>
          dsimp only
          split <;> rfl
        | null | list => rfl
      · grind
      · grind
    · simp [pc] at late
  | putBack =>
    rw [if_neg (by simp [pc]), if_neg (by simp [pc])] at item
    rcases carried.stage with ⟨queued, -, revents, ovf⟩ | ⟨-, late, -⟩
    · simp only [pc] at advances
      refine ⟨by simp [advances.2.1], Or.inl ⟨advances.2.2 ▸ queued, ?_, ?_, ?_⟩⟩
      · show (pollStep s.ep s.poll got).2.pc.window = true
        simp [pollStep, pc, Pc.window]
      · grind
      · grind
    · simp [pc] at late
  | merge =>
    have pointer : s.toSys.ovf = s.poll.nepi := by simp [Sys.ovf, place, pc]
    rw [pointer] at overflow
    simp only [pc] at advances
    rw [if_neg (by simp [pc])] at item
    refine ⟨by simp [advances.1], ?_⟩
    cases list : v.ovf with
    | nil =>
      rcases carried.stage with ⟨queued, -⟩ | ⟨absent, -, revents⟩
      · simp [list] at queued
      · have null : s.poll.nepi = .null := by
          have chain := overflow.chain
          rw [list] at chain
          exact chain
        rw [if_neg (by simp [null])] at item
        refine Or.inr ⟨by simp [advances.2.1, list], Or.inr ?_, ?_⟩
        · show (pollStep s.ep s.poll got).2.pc = .returned
          simp [pollStep, pc, null]
        · grind
    | cons y l =>
      have chain := overflow.chain
      have distinct := overflow.distinct
      rw [list] at chain distinct
      have first : s.poll.nepi = .epi y := chain.1
      have still : (pollStep s.ep s.poll got).2.pc = .merge := by simp [pollStep, pc, first]
      have remaining : v'.ovf = l := by simp [advances.2.1, list]
      rcases carried.stage with ⟨queued, -, revents, ovf⟩ | ⟨absent, -, revents⟩
      · by_cases same : x = y
        · -- now it is merged
          subst same
          rw [if_pos ⟨pc, first⟩] at item
          refine Or.inr ⟨remaining ▸ (List.nodup_cons.mp distinct).1, Or.inl still, ?_⟩
          grind
        · have later : x ∈ v'.ovf := by
            rw [list] at queued
            rw [remaining]
            simpa [same] using queued
          rw [if_neg (by simp [first, Ne.symm same])] at item
          refine Or.inl ⟨later, by simp [still, Pc.window], ?_, ?_⟩
          · grind
          · grind
      · have other : y ≠ x := by
          rintro rfl
          exact absent (by simp [list])
        rw [if_neg (by simp [first, other])] at item
        refine Or.inr ⟨?_, Or.inl still, ?_⟩
        · rw [remaining]
          exact fun member => absent (by simp [list, member])
        · grind

/-- The callback that falls into a poll behind the detaching of the list. -/
theorem Requested.carried (requested : Requested s v) {events : UInt32} {s₁ s₂ : Controlled}
    (at_detach : s.poll.pc = .detach) (unlinked : s.ep.linked (.rdllink x) = false)
    (none : (s.ep.item x).revents = 0) (some : (s.ep.item x).events &&& events ≠ 0)
    (detached : s.act (.advance got) = .some s₁)
    (called : s₁.act (.callback x events) = .some s₂) : ∃ v₂, Carried s₂ v₂ x events := by
  have outside : s.toSys.poll.pc.window = false := by
    show s.poll.pc.window = false
    rw [at_detach]
    rfl
  have noOvf := (requested.inv.quiet outside).2.1
  have nothing : (s.ep.item x).ovfRevents = 0 := requested.inv.overflow.clean x (by simp [noOvf])
  have idle : (s.ep.item x).next = .unactive := by
    have queued := requested.inv.overflow.queued x
    by_contra linked
    have member := queued.mp linked
    simp [noOvf] at member
  have absent : x ∉ v.ready := by
    intro member
    have linked := requested.inv.held.ready.linked_of_mem member
    have same : s.toSys.ep = s.ep := rfl
    rw [same, unlinked] at linked
    contradiction
  obtain ⟨v₁, inv₁, advances⟩ := requested.inv.controlled_advance detached
  have place : s.toSys.poll.pc = .detach := at_detach
  simp only [Advances, place] at advances
  obtain ⟨-, rest, ovf⟩ := advances
  obtain ⟨-, rfl⟩ := of_guarded detached
  have step : pollStep s.ep s.poll got =
      (s.ep.detach, { s.poll with pc := .walk, head := s.ep.next .list, tail := s.ep.tail }) := by
    simp [pollStep, at_detach]
  rw [step] at inv₁ called
  have callbacks : s₂ = ⟨s.ep.detach.eventCallback x events,
      { s.poll with pc := .walk, head := s.ep.next .list, tail := s.ep.tail }, s.ctl⟩ := by
    rw [Controlled.act, if_neg (fun merging => Pc.noConfusion merging)] at called
    exact (Option.some.inj called).symm
  subst callbacks
  have window : s.ep.detach.ovflist ≠ .unactive :=
    fun inactive => Ovf.noConfusion inactive
  have after := inv₁.callback_window (fun merging => Pc.noConfusion merging) (by exact some)
    window
  obtain ⟨-, -, revents, ovfRevents⟩ := eventCallback_item s.ep.detach x events x
  refine ⟨_, after.forget, ?_, Or.inl ⟨?_, rfl, ?_, ?_⟩⟩
  · rw [rest]
    exact absent
  · have free : (s.ep.detach.item x).next = .unactive := idle
    show x ∈ if (s.ep.detach.item x).next = .unactive then x :: v₁.ovf else v₁.ovf
    rw [if_pos free]
    exact List.mem_cons_self
  · show ((s.ep.detach.eventCallback x events).item x).revents = 0
    rw [revents, if_neg (by simp [window])]
    exact none
  · show ((s.ep.detach.eventCallback x events).item x).ovfRevents = events
    rw [ovfRevents, if_pos ⟨rfl, some, window⟩]
    show (s.ep.item x).ovfRevents ||| events = events
    rw [nothing, UInt32.zero_or]

end

/-- Callbacks outside polls, modifications that keep the stored events, modules without events. -/
def Controlled.plain (s : Controlled) : Step → Bool
  | .advance got => decide (got = 0)
  | .callback _ _ => decide (s.ep.ovflist = .unactive)
  | .mod epi events _ => decide (Within (s.ep.item epi).revents (events ||| epollErrHup))
  | .triggle ret => decide (ret = some 0)
  | _ => true

/-- The state in which samples start: items that ask for input and belong to one module. -/
def Controlled.sample (rmidx : Int) : Controlled :=
  Controlled.fresh (fun _ => 1) (fun i => UInt64.ofNat i) fun _ => rmidx

end Dmm.Epoll
