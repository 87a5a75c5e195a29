import Dmm.Epoll.Delivery
import Dmm.Epoll.Masks

/-!
# Waiting for events

`nstack_epoll_wait` with no timeout, called again and again by one thread, and any callbacks. The
thread polls, and while a poll reports nothing it waits for `waitSem` and polls again. A callback
that puts an item on the ready list posts the semaphore; one that falls into a poll leaves its
item on `ovflist`, and the poll puts it on the ready list without a post. If that poll reports
nothing, the thread goes on to wait with the event on the list.
-/

namespace Dmm.Epoll

open Dmm.Mask

/-- Where the thread is in `nstack_epoll_wait`. -/
inductive Stage
  | out
  | first
  | waiting
  | again
  deriving DecidableEq, Repr

/-- An eventpoll with the thread that waits on it. -/
structure Waiter where
  sys : Sys
  stage : Stage

/-- What can happen. -/
inductive Move
  | enter (maxevents : Nat)
  | advance (got : UInt32)
  | wake
  | interrupt
  | callback (epi : Nat) (events : UInt32)
  deriving DecidableEq, Repr

namespace Waiter

/-- Where the thread goes when its poll has returned: out with events, to wait without. -/
def afterPoll (stage : Stage) (poll : Poll) : Stage :=
  if poll.pc = .returned then if poll.reports = [] then .waiting else .out else stage

/-- One move. -/
def act (w : Waiter) : Move → Option Waiter
  | .enter maxevents =>
    if w.stage = .out then (w.sys.act (.poll maxevents)).map (⟨·, .first⟩) else none
  | .advance got =>
    if w.stage = .first ∨ w.stage = .again then
      (w.sys.act (.advance got)).map fun s => ⟨s, afterPoll w.stage s.poll⟩
    else none
  | .wake =>
    if w.stage = .waiting ∧ 0 < w.sys.ep.waitSem then
      let taken := { w.sys with ep := { w.sys.ep with waitSem := w.sys.ep.waitSem - 1 } }
      (taken.act (.poll w.sys.poll.maxevents)).map (⟨·, .again⟩)
    else none
  | .interrupt => if w.stage = .waiting then some { w with stage := .out } else none
  | .callback epi events => (w.sys.act (.callback epi events)).map ({ w with sys := · })

/-- A fresh eventpoll and a thread that has not called yet. -/
def fresh (events : Nat → UInt32) (data : Nat → UInt64) (rmidx : Nat → Int) : Waiter :=
  ⟨Sys.fresh events data rmidx, .out⟩

/-- The thread is blocked and an item with an event is on the ready list. -/
def Lost (w : Waiter) : Prop :=
  w.stage = .waiting ∧ w.sys.ep.waitSem = 0 ∧
    ∃ i, w.sys.ep.OnReady i ∧ (w.sys.ep.item i).revents ≠ 0

/-- The poll has detached the item and has not examined it. -/
def Unexamined (w : Waiter) (i : Nat) : Prop :=
  ∃ l, w.sys.ep.Detached w.sys.head w.sys.poll.tail l ∧ i ∈ l

/-- A callback comes in time: while a poll has the list, only if the semaphore has a count, the
poll has reported something or is yet to examine an item with an event. -/
def Timely (w : Waiter) : Move → Prop
  | .callback epi events =>
    (w.sys.ep.item epi).events &&& events = 0 ∨ w.sys.ep.ovflist = .unactive ∨
      0 < w.sys.ep.waitSem ∨ w.sys.poll.reports ≠ [] ∨
      ∃ i, w.Unexamined i ∧ (w.sys.ep.item i).revents ≠ 0
  | _ => True

end Waiter

section

variable {s s' : Sys} {v v' : Lists} {w w' : Waiter} {got events : UInt32} {x : Nat}

/-! ## What a step leaves alone -/

theorem Eventpoll.addUnlinked_waitSem (ep : Eventpoll) (x : Nat) :
    (ep.addUnlinked x).waitSem = ep.waitSem := by
  unfold Eventpoll.addUnlinked
  split <;> rfl

theorem pollStep_waitSem (ep : Eventpoll) (poll : Poll) (got : UInt32) :
    (pollStep ep poll got).1.waitSem = ep.waitSem := by
  unfold pollStep
  cases poll.pc with
  | returned | start | locked | detach => rfl
  | walk =>
    cases poll.head with
    | rdllink x =>
      show (ep.examine x got).waitSem = ep.waitSem
      unfold Eventpoll.examine
      cases ep.requeues x got <;> rfl
    | null | list => rfl
  | putBack => grind [Eventpoll.putBack]
  | merge =>
    cases poll.nepi with
    | epi x => exact Eventpoll.addUnlinked_waitSem _ x
    | unactive | null => rfl

theorem eventCallback_waitSem (ep : Eventpoll) (x : Nat) (events : UInt32) :
    ep.waitSem ≤ (ep.eventCallback x events).waitSem := by
  unfold Eventpoll.eventCallback
  split
  · exact le_refl _
  split
  · by_cases free : (ep.item x).next = .unactive <;> simp [free, Eventpoll.modify]
  · cases ep.linked (.rdllink x)
    · exact Nat.le_succ _
    · exact le_refl _

/-- While a poll has the list a callback touches neither the semaphore nor `revents`. -/
theorem eventCallback_window {ep : Eventpoll} (requested : (ep.item x).events &&& events ≠ 0)
    (window : ep.ovflist ≠ .unactive) :
    (ep.eventCallback x events).waitSem = ep.waitSem ∧
      ∀ j, ((ep.eventCallback x events).item j).revents = (ep.item j).revents := by
  rw [Eventpoll.eventCallback, if_neg requested, if_pos window]
  constructor
  · by_cases free : (ep.item x).next = .unactive <;> simp [free, Eventpoll.modify]
  · intro j
    by_cases free : (ep.item x).next = .unactive <;> by_cases same : j = x <;>
      simp [free, same, Eventpoll.modify]

theorem Sys.act_advance (taken : s.act (.advance got) = some s') :
    s.poll.pc ≠ .returned ∧ s'.ep = (pollStep s.ep s.poll got).1 ∧
      s'.poll = (pollStep s.ep s.poll got).2 ∧
        s'.pending = Sys.shown s.pending (s.written got) := by
  grind [Sys.act]

theorem pollStep_reports (s : Sys) (got : UInt32) :
    (pollStep s.ep s.poll got).2.reports = s.poll.reports ++ (s.written got).toList := by
  grind [pollStep, Sys.written]

/-! ## A poll that has reported nothing -/

/-- What a poll that has reported nothing will find, or the semaphore has a count. -/
def Unseen (s : Sys) (v : Lists) : Prop :=
  match s.poll.pc with
  | .walk =>
    v.ready = [] ∧
      (v.ovf ≠ [] → 0 < s.ep.waitSem ∨ ∃ j ∈ v.rest, (s.ep.item j).revents ≠ 0)
  | .putBack => v.ready = [] ∧ v.rest = [] ∧ (v.ovf ≠ [] → 0 < s.ep.waitSem)
  | .merge => v.ready ≠ [] ∨ v.ovf ≠ [] → 0 < s.ep.waitSem
  | _ => True

theorem revents_of_unreported {ep : Eventpoll} (silent : ep.report x got = none) :
    (ep.item x).revents = 0 := by
  unfold Eventpoll.report at silent
  split at silent
  · contradiction
  case isFalse nothing =>
    apply Within.eq_zero
    rw [← not_not.mp nothing]
    exact within_or_left _ _

theorem unseen_of_outside (outside : s.poll.pc.window = false) : Unseen s v := by
  unfold Unseen
  split <;> simp_all [Pc.window]

/-- A check whether the list is empty, which ends the poll if it is. -/
theorem unseen_of_check (inv : Inv s v) {next : Pc}
    (step : s'.poll.pc = if s.ep.hlistEmpty then .returned else next)
    (further : next = .locked ∨ next = .detach) :
    (s'.poll.pc = .returned → v.ready ≠ [] → 0 < s'.ep.waitSem) ∧ Unseen s' v := by
  grind [inv.held.ready.hlistEmpty_iff, unseen_of_outside, Pc.window]

/-- A step of a poll that reports nothing. -/
theorem Unseen.advance (inv : Inv s v) (unseen : Unseen s v)
    (taken : s.act (.advance got) = some s') (advances : Advances s got v v')
    (none : s'.poll.reports = []) :
    (s'.poll.pc = .returned → v'.ready ≠ [] → 0 < s'.ep.waitSem) ∧ Unseen s' v' := by
  obtain ⟨running, epAfter, pollAfter, -⟩ := Sys.act_advance taken
  have sem : s'.ep.waitSem = s.ep.waitSem := by rw [epAfter, pollStep_waitSem]
  rw [pollAfter, pollStep_reports] at none
  obtain ⟨before, silent⟩ := List.append_eq_nil_iff.mp none
  have unwritten : s.written got = .none := by simpa using silent
  unfold Unseen at unseen
  unfold Advances at advances
  cases pc : s.poll.pc with
  | returned => exact absurd pc running
  | start =>
    have step : s'.poll.pc = if s.ep.hlistEmpty then .returned else .locked := by
      rw [pollAfter]
      simp [pollStep, pc]
    have same : v' = v := by simpa [pc] using advances
    rw [same]
    exact unseen_of_check inv step (Or.inl rfl)
  | locked =>
    have step : s'.poll.pc = if s.ep.hlistEmpty then .returned else .detach := by
      rw [pollAfter]
      simp [pollStep, pc]
    have same : v' = v := by simpa [pc] using advances
    rw [same]
    exact unseen_of_check inv step (Or.inr rfl)
  | detach => grind [pollStep, Unseen]
  | walk =>
    obtain ⟨noReady, waits⟩ : v.ready = [] ∧
        (v.ovf ≠ [] → 0 < s.ep.waitSem ∨ ∃ j ∈ v.rest, (s.ep.item j).revents ≠ 0) := by
      simpa [pc] using unseen
    have here : s.head = s.poll.head := by simp [Sys.head, pc]
    have detached := inv.held.detached
    rw [here] at detached
    cases rest : v.rest with
    | nil => grind [Unseen]
    | cons x rest' =>
      rw [rest] at detached
      have head : s.poll.head = .rdllink x := detached.1
      have unreported : s.ep.report x got = .none := by
        simpa [Sys.written, pc, head] using unwritten
      have quiet := revents_of_unreported unreported
      have room := inv.bounded.room pc
      grind [pollStep, Unseen, s.ep.examine_item]
  | putBack => grind [Unseen]
  | merge => grind [Unseen, pollStep]

/-! ## No wake-up is lost -/

/-- Whatever is on the ready list while the thread waits has a count of the semaphore. -/
structure Awake (w : Waiter) (v : Lists) : Prop where
  inv : Inv w.sys v
  out : w.stage = .out → w.sys.poll.pc = .returned
  waiting : w.stage = .waiting → w.sys.poll.pc = .returned ∧ (v.ready ≠ [] → 0 < w.sys.ep.waitSem)
  polling : w.stage = .first ∨ w.stage = .again →
    w.sys.poll.pc ≠ .returned ∧ (w.sys.poll.reports = [] → Unseen w.sys v)

theorem awake_fresh (events : Nat → UInt32) (data : Nat → UInt64) (rmidx : Nat → Int) :
    Awake (Waiter.fresh events data rmidx) ⟨[], [], []⟩ :=
  ⟨inv_fresh events data rmidx, fun _ => rfl, nofun,
    fun polling => by simp [Waiter.fresh] at polling⟩

/-- A call begins a poll that has reported nothing. -/
theorem Awake.call (inv : Inv s v) {maxevents : Nat} {stage : Stage}
    (polling : stage = .first ∨ stage = .again) (taken : s.act (.poll maxevents) = some s') :
    Awake ⟨s', stage⟩ v := by
  have pc : s'.poll.pc = .start := by
    obtain ⟨-, rfl⟩ := of_guarded taken
    rfl
  refine ⟨inv.call taken, ?_, ?_, ?_⟩
  · rintro rfl
    simp at polling
  · rintro rfl
    simp at polling
  · intro _
    refine ⟨by simp [pc], fun _ => unseen_of_outside ?_⟩
    rw [pc]
    rfl

theorem Awake.advance (awake : Awake w v) (taken : w.act (.advance got) = some w') :
    ∃ v', Awake w' v' := by
  rw [Waiter.act] at taken
  split at taken
  case isFalse => contradiction
  case isTrue polling =>
    obtain ⟨s', step, rfl⟩ := Option.map_eq_some_iff.mp taken
    obtain ⟨running, unseen⟩ := awake.polling polling
    obtain ⟨v', inv, advances⟩ := awake.inv.advance step
    have later := fun none => Unseen.advance awake.inv
      (unseen (by
        obtain ⟨-, -, pollAfter, -⟩ := Sys.act_advance step
        rw [pollAfter, pollStep_reports] at none
        exact (List.append_eq_nil_iff.mp none).1)) step advances none
    refine ⟨v', inv, ?_, ?_, ?_⟩
    · grind [Waiter.afterPoll]
    · grind [Waiter.afterPoll]
    · grind [Waiter.afterPoll]

/-- A callback. -/
theorem Awake.callback (awake : Awake w v) (timely : w.Timely (.callback x events))
    (taken : w.act (.callback x events) = some w') : ∃ v', Awake w' v' := by
  rw [Waiter.act] at taken
  obtain ⟨s', step, rfl⟩ := Option.map_eq_some_iff.mp taken
  obtain ⟨unlocked, rfl⟩ := of_unrefused step
  have sem := eventCallback_waitSem w.sys.ep x events
  by_cases requested : (w.sys.ep.item x).events &&& events = 0
  · rw [Sys.called_of_unrequested requested]
    exact ⟨v, awake⟩
  by_cases direct : w.sys.ep.ovflist = .unactive
  · have inv := awake.inv.callback_direct unlocked requested direct
    refine ⟨_, inv, awake.out, ?_, ?_⟩
    · intro waiting
      obtain ⟨returned, counted⟩ := awake.waiting waiting
      refine ⟨returned, ?_⟩
      intro _
      cases linked : w.sys.ep.linked (.rdllink x) with
      | true =>
        simp only [Sys.called]
        grind
      | false =>
        show 0 < (w.sys.ep.eventCallback x events).waitSem
        rw [Eventpoll.eventCallback, if_neg requested, if_neg (not_not.mpr direct), linked]
        exact Nat.succ_pos _
    · intro polling
      obtain ⟨running, -⟩ := awake.polling polling
      refine ⟨running, fun _ => unseen_of_outside ?_⟩
      simp only [Pc.window, Sys.called]
      grind [awake.inv.window_iff]
  · have inv := awake.inv.callback_window unlocked requested direct
    have window := (awake.inv.window_iff unlocked).mp direct
    refine ⟨_, inv, awake.out, ?_, ?_⟩
    · grind [waiting]
    · intro polling
      obtain ⟨running, unseen⟩ := awake.polling polling
      refine ⟨running, ?_⟩
      intro none
      have before : Unseen w.sys v := unseen none
      -- what the condition says about this callback
      have count : 0 < w.sys.ep.waitSem ∨
          ∃ j ∈ v.rest, (w.sys.ep.item j).revents ≠ 0 := by
        rcases timely with other | closed | count | reported | ⟨i, ⟨l, detached, member⟩, event⟩
        · exact absurd other requested
        · exact absurd closed direct
        · exact Or.inl count
        · exact absurd none reported
        · grind [detached.unique, awake.inv.held.detached]
      grind [eventCallback_window, Unseen, Sys.called]

/-- Every move. -/
theorem Awake.act (awake : Awake w v) {move : Move} (timely : w.Timely move)
    (taken : w.act move = some w') : ∃ v', Awake w' v' := by
  cases move with
  | enter maxevents =>
    rw [Waiter.act] at taken
    split at taken
    · obtain ⟨s', step, rfl⟩ := Option.map_eq_some_iff.mp taken
      exact ⟨v, .call awake.inv (Or.inl rfl) step⟩
    · contradiction
  | advance got => exact awake.advance taken
  | wake =>
    rw [Waiter.act] at taken
    split at taken
    case isTrue can =>
      obtain ⟨s', step, rfl⟩ := Option.map_eq_some_iff.mp taken
      have inv : Inv { w.sys with ep := { w.sys.ep with waitSem := w.sys.ep.waitSem - 1 } } v :=
        awake.inv.relink (awake.inv.held.congr rfl rfl rfl) rfl rfl
          fun i on off => absurd (on.symm.trans off) nofun
      exact ⟨v, .call inv (Or.inr rfl) step⟩
    case isFalse => contradiction
  | interrupt =>
    obtain ⟨waiting, rfl⟩ := of_guarded taken
    exact ⟨v, awake.inv, fun _ => (awake.waiting waiting).1, nofun,
      fun polling => by simp at polling⟩
  | callback epi events => exact awake.callback timely taken

/-- While its callbacks are timely the thread is not blocked with an event on the list. -/
theorem Awake.not_lost (awake : Awake w v) : ¬ w.Lost := by
  rintro ⟨waiting, none, i, onReady, -⟩
  have member := awake.inv.held.ready.mem_of_onReady onReady
  have count := (awake.waiting waiting).2 (List.ne_nil_of_mem member)
  omega

/-! ## An untimely callback loses its wake-up -/

/-- A poll that has the list and has nothing to report. -/
structure Silent (s : Sys) (v : Lists) : Prop where
  inv : Inv s v
  window : s.poll.pc.window = true
  reports : s.poll.reports = []
  quiet : ∀ j ∈ v.rest, (s.ep.item j).revents = 0

/-- The steps such a poll still takes, but for a few. -/
def Silent.measure (s : Sys) (v : Lists) : Nat :=
  v.rest.length + v.ovf.length +
    match s.poll.pc with
    | .walk => 3
    | .putBack => 2
    | _ => 1

theorem report_zero {ep : Eventpoll} (quiet : (ep.item x).revents = 0) : ep.report x 0 = none := by
  simp [Eventpoll.report, Eventpoll.gathered, quiet]

/-- One more step of such a poll if no module has an event: it stays so or returns. -/
theorem Silent.advance (silent : Silent s v) :
    ∃ s', s.act (.advance 0) = some s' ∧ s'.poll.reports = [] ∧ s'.pending = s.pending ∧
      s'.ep.waitSem = s.ep.waitSem ∧ ∃ v', Inv s' v' ∧
        (s'.poll.pc = .returned ∨
          Silent s' v' ∧ Silent.measure s' v' < Silent.measure s v) := by
  have running : s.poll.pc ≠ .returned := by
    intro returned
    have window := silent.window
    simp [returned, Pc.window] at window
  have here (at_walk : s.poll.pc = .walk) : s.ep.Detached s.poll.head s.poll.tail v.rest := by
    have detached := silent.inv.held.detached
    simpa [Sys.head, at_walk] using detached
  have unwritten : s.written 0 = none := by
    unfold Sys.written
    split
    case h_1 x at_walk head =>
      have detached := here at_walk
      cases rest : v.rest with
      | nil =>
        rw [rest] at detached
        cases Eq.trans (Eq.symm head) detached
      | cons y r =>
        rw [rest] at detached
        have same : x = y := Node.rdllink.inj (head.symm.trans detached.1)
        exact report_zero (silent.quiet x (by simp [rest, same]))
    case h_2 => rfl
  obtain ⟨s', taken⟩ : ∃ s', s.act (.advance 0) = some s' := by
    rw [Sys.act, if_neg running]
    exact ⟨_, rfl⟩
  obtain ⟨-, epAfter, pollAfter, pendingAfter⟩ := Sys.act_advance taken
  have none : s'.poll.reports = [] := by
    rw [pollAfter, pollStep_reports, unwritten, silent.reports]
    rfl
  refine ⟨s', taken, none, ?_, ?_, ?_⟩
  · rw [pendingAfter, unwritten]
    rfl
  · rw [epAfter, pollStep_waitSem]
  obtain ⟨v', inv, advances⟩ := silent.inv.advance taken
  refine ⟨v', inv, ?_⟩
  unfold Advances at advances
  cases pc : s.poll.pc with
  | returned | start | locked | detach =>
    have window := silent.window
    simp [pc, Pc.window] at window
  | walk =>
    have detached := here pc
    cases rest : v.rest with
    | nil =>
      rw [rest] at detached
      have null : s.poll.head = .null := detached
      have step : s'.poll.pc = .putBack := by
        rw [pollAfter]
        simp [pollStep, pc, null]
      obtain ⟨ovf, -, noRest⟩ : v'.ovf = v.ovf ∧ v'.ready = v.ready ∧ v'.rest = [] := by
        simpa [pc, rest] using advances
      refine Or.inr ⟨⟨inv, by simp [step, Pc.window], none, by simp [noRest]⟩, ?_⟩
      simp [Silent.measure, step, pc, ovf, noRest, rest]
    | cons x r =>
      rw [rest] at detached
      have head : s.poll.head = .rdllink x := detached.1
      have quiet := silent.quiet x (by simp [rest])
      have room := silent.inv.bounded.room pc
      have step : s'.poll.pc = .walk := by grind [pollStep]
      have item : s'.ep.item = (s.ep.examine x 0).item := by
        rw [epAfter]
        simp [pollStep, pc, head]
      obtain ⟨ovf, remaining, -⟩ : v'.ovf = v.ovf ∧ v'.rest = r ∧ v'.ready = v.ready := by
        simpa [pc, rest, unwritten] using advances
      refine Or.inr ⟨⟨inv, by simp [step, Pc.window], none, ?_⟩, ?_⟩
      · intro j member
        rw [item, s.ep.examine_item 0 j]
        grind [silent.quiet]
      · grind [Silent.measure]
  | putBack =>
    have step : s'.poll.pc = .merge := by
      rw [pollAfter]
      simp [pollStep, pc]
    obtain ⟨-, noRest, ovf⟩ : v'.ready = v.ready ++ v.rest ∧ v'.rest = [] ∧ v'.ovf = v.ovf := by
      simpa [pc] using advances
    refine Or.inr ⟨⟨inv, by simp [step, Pc.window], none, by simp [noRest]⟩, ?_⟩
    simp only [Silent.measure, step, pc, ovf, noRest, List.length_nil]
    omega
  | merge =>
    obtain ⟨noRest, ovf, -⟩ : v'.rest = [] ∧ v'.ovf = v.ovf.tail ∧
        (v'.ready = v.ready ∨ ∃ x ∈ v.ovf.head?, v'.ready = v.ready ++ [x]) := by
      simpa [pc] using advances
    have chain := silent.inv.overflow.chain
    have pointer : s.ovf = s.poll.nepi := by simp [Sys.ovf, pc]
    rw [pointer] at chain
    cases list : v.ovf with
    | nil =>
      rw [list] at chain
      have null : s.poll.nepi = .null := chain
      refine Or.inl ?_
      rw [pollAfter]
      simp [pollStep, pc, null]
    | cons x l =>
      rw [list] at chain
      have first : s.poll.nepi = .epi x := chain.1
      have step : s'.poll.pc = .merge := by
        rw [pollAfter]
        simp [pollStep, pc, first]
      refine Or.inr ⟨⟨inv, by simp [step, Pc.window], none, by simp [noRest]⟩, ?_⟩
      grind [Silent.measure]

/-- The thread runs such a poll to its end and waits. -/
theorem Silent.waits (n : Nat) (silent : Silent w.sys v) (bound : Silent.measure w.sys v ≤ n)
    (polling : w.stage = .first ∨ w.stage = .again) :
    ∃ w', Runs Waiter.act Waiter.Timely w w' ∧ w'.stage = .waiting ∧
      w'.sys.poll.pc = .returned ∧ w'.sys.pending = w.sys.pending ∧
      w'.sys.ep.waitSem = w.sys.ep.waitSem ∧ ∃ v', Inv w'.sys v' := by
  induction n generalizing w v with
  | zero =>
    exfalso
    unfold Silent.measure at bound
    split at bound <;> omega
  | succ n ih =>
    obtain ⟨s', taken, none, pending, sem, v', inv, outcome⟩ := silent.advance
    have step : w.act (.advance 0) = some ⟨s', Waiter.afterPoll w.stage s'.poll⟩ := by
      rw [Waiter.act, if_pos polling, taken]
      rfl
    have first : Runs Waiter.act Waiter.Timely w ⟨s', Waiter.afterPoll w.stage s'.poll⟩ :=
      Runs.start.step (.advance 0) trivial step
    rcases outcome with returned | ⟨still, smaller⟩
    · refine ⟨_, first, ?_, returned, pending, sem, v', inv⟩
      simp [Waiter.afterPoll, returned, none]
    · have place : Waiter.afterPoll w.stage s'.poll = w.stage := by
        apply if_neg
        grind [still.window, Pc.window]
      rw [place] at first
      have fewer : Silent.measure s' v' ≤ n := by omega
      obtain ⟨w', rest, waiting, returned, pending', sem', inv'⟩ :=
        @ih v' ⟨s', w.stage⟩ still fewer polling
      exact ⟨w', first.trans rest, waiting, returned, pending'.trans pending, sem'.trans sem, inv'⟩

/-- A callback that is not timely can be followed by the thread alone to where it is blocked. -/
theorem Awake.lost_of_untimely (awake : Awake w v) (untimely : ¬ w.Timely (.callback x events))
    (taken : w.act (.callback x events) = some w') :
    ∃ lost, Runs Waiter.act Waiter.Timely w' lost ∧ lost.Lost := by
  simp only [Waiter.Timely, not_or, not_exists, not_and] at untimely
  obtain ⟨requested, window, noCount, noReport, noEvent⟩ := untimely
  rw [Waiter.act] at taken
  obtain ⟨s', step, rfl⟩ := Option.map_eq_some_iff.mp taken
  obtain ⟨unlocked, rfl⟩ := of_unrefused step
  have inv := awake.inv.callback_window unlocked requested window
  have pc := (awake.inv.window_iff unlocked).mp window
  have polling : w.stage = .first ∨ w.stage = .again := by
    cases stage : w.stage with
    | out =>
      have returned := awake.out stage
      rcases pc with pc | pc <;> simp [pc] at returned
    | waiting => grind [awake.waiting]
    | first => exact Or.inl rfl
    | again => exact Or.inr rfl
  obtain ⟨sem, revents⟩ := eventCallback_window requested window
  have silent : Silent (w.sys.called x events)
      ⟨v.ready, v.rest, if (w.sys.ep.item x).next = .unactive then x :: v.ovf else v.ovf⟩ := by
    refine ⟨inv, ?_, not_not.mp noReport, ?_⟩
    · show w.sys.poll.pc.window = true
      rcases pc with pc | pc <;> rw [pc] <;> rfl
    · intro j member
      show ((w.sys.ep.eventCallback x events).item j).revents = 0
      rw [revents j]
      have unexamined : w.Unexamined j := ⟨v.rest, awake.inv.held.detached, member⟩
      exact not_not.mp (noEvent j unexamined)
  obtain ⟨lost, run, waiting, returned, pending, count, v', after⟩ :=
    @Silent.waits _ ⟨w.sys.called x events, w.stage⟩ _ silent (le_refl _) polling
  -- the event is still owed, so it is on the list
  have owed : lost.sys.pending x ≠ 0 := by
    intro none
    apply requested
    apply Within.eq_zero
    rw [← none, pending]
    show Within _ (Function.update w.sys.pending x _ x)
    rw [Function.update_self]
    exact within_or_right _ _
  obtain ⟨member, shown⟩ := (after.keeps.delivered returned).2 x owed
  refine ⟨lost, run, waiting, ?_, x, ⟨v'.ready, after.held.ready, member⟩, ?_⟩
  · rw [count]
    show (w.sys.ep.eventCallback x events).waitSem = 0
    rw [sem]
    omega
  · intro none
    rw [none] at shown
    exact owed shown.eq_zero

/-- In every run with timely callbacks the thread is never blocked with an event on the ready
list; and where a callback is not timely, the thread alone can go on to where it is. -/
theorem no_lost_wakeup (events : Nat → UInt32) (data : Nat → UInt64) (rmidx : Nat → Int)
    (run : Runs Waiter.act Waiter.Timely (Waiter.fresh events data rmidx) w) :
    ¬ w.Lost ∧ ∀ x delivered w', w.act (.callback x delivered) = some w' →
      ¬ w.Timely (.callback x delivered) →
        ∃ lost, Runs Waiter.act Waiter.Timely w' lost ∧ lost.Lost := by
  have reached : ∃ v, Awake w v := by
    apply run.invariant ⟨_, awake_fresh events data rmidx⟩
    rintro t move u ⟨v, awake⟩ timely taken
    exact awake.act timely taken
  obtain ⟨v, awake⟩ := reached
  exact ⟨awake.not_lost, fun x delivered w' taken untimely =>
    awake.lost_of_untimely untimely taken⟩

end

/-- Callbacks while no poll has the list. -/
def Waiter.callsOutside (w : Waiter) : Move → Bool
  | .callback _ _ => decide (w.sys.ep.ovflist = .unactive)
  | _ => true

theorem Waiter.timely_of_callsOutside (w : Waiter) (move : Move)
    (guard : w.callsOutside move = true) : w.Timely move := by
  cases move with
  | callback epi events => exact Or.inr (Or.inl (of_decide_eq_true guard))
  | _ => trivial

/-- The thread waits, an event wakes it and it reports it. -/
theorem wakeup_reported :
    ∃ w, Runs Waiter.act Waiter.Timely
        (Waiter.fresh (fun _ => 0x19) (fun i => UInt64.ofNat i) fun _ => 0) w ∧
      w.stage = .out ∧ w.sys.poll.reports = [⟨7, 1, 7⟩] ∧ ¬ w.Lost := by
  have ran : ∃ w, Runs Waiter.act Waiter.Timely
      (Waiter.fresh (fun _ => 0x19) (fun i => UInt64.ofNat i) fun _ => 0) w ∧
        decide (w.stage = .out ∧ w.sys.poll.reports = [⟨7, 1, 7⟩]) = true := by
    apply exists_runs_of_execute Waiter.callsOutside [.enter 4, .advance 0, .callback 7 1, .wake,
      .advance 0, .advance 0, .advance 0, .advance 0, .advance 0, .advance 0, .advance 0]
      Waiter.timely_of_callsOutside
    decide +kernel
  obtain ⟨w, run, facts⟩ := ran
  obtain ⟨out, reports⟩ := of_decide_eq_true facts
  exact ⟨w, run, out, reports, (no_lost_wakeup _ _ _ run).1⟩

/-- An item that was reported and is not ready any more is dropped by the next call's first poll;
an event of another item that comes in meanwhile is left on the list without a count. -/
theorem wakeup_lost :
    ∃ w, Runs Waiter.act (fun _ _ => True)
        (Waiter.fresh (fun _ => 0x19) (fun i => UInt64.ofNat i) fun _ => 0) w ∧ w.Lost := by
  have ran : ∃ w, Runs Waiter.act (fun _ _ => True)
      (Waiter.fresh (fun _ => 0x19) (fun i => UInt64.ofNat i) fun _ => 0) w ∧
        decide (w.stage = .waiting ∧ w.sys.ep.waitSem = 0 ∧ (w.sys.ep.item 1).revents = 1 ∧
          w.sys.ep.next .list = .rdllink 1 ∧ w.sys.ep.pprev (.rdllink 1) = .list ∧
          w.sys.ep.next (.rdllink 1) = .null ∧ w.sys.ep.tail = .rdllink 1) = true := by
    apply exists_runs_of_execute (fun _ _ => true) [.enter 1, .advance 0, .callback 0 1, .wake,
      .advance 0, .advance 0, .advance 0, .advance 0, .advance 0, .advance 0, .enter 1, .advance 0,
      .advance 0, .advance 0, .callback 1 1, .advance 0, .advance 0, .advance 0, .advance 0,
      .advance 0] fun _ _ _ => trivial
    decide +kernel
  obtain ⟨w, run, facts⟩ := ran
  obtain ⟨waiting, sem, revents, first, before, last, tail⟩ := of_decide_eq_true facts
  have ready : w.sys.ep.Ready [1] :=
    ⟨⟨first, (backTo_rdllink _ _ 1).trans before, last, (backTo_null _ _).trans tail⟩,
      List.nodup_singleton 1⟩
  exact ⟨w, run, waiting, sem, 1, ⟨[1], ready, List.mem_singleton_self 1⟩, by simp [revents]⟩

end Dmm.Epoll
