import Dmm.Epoll.Delivery

/-!
# Which items a poll reports

Polls one after the other with nothing in between. `nsep_events_proc` puts the items it reported
on the emptied ready list, and the rest of the detached items goes behind them: a list of items
that stay ready comes back in the same order, and every poll reports the same first items.
-/

namespace Dmm.Epoll

/-- Steps of a poll; `gets` is what `ep_getevt` returns for each item. -/
def pollRun (gets : Nat → UInt32) : Nat → Eventpoll × Poll → Eventpoll × Poll
  | 0, state => state
  | fuel + 1, (ep, poll) =>
    let got := match poll.head with
      | .rdllink epi => gets epi
      | _ => 0
    pollRun gets fuel (pollStep ep poll got)

/-- A call of `nsep_ep_poll` returns and has filled these entries. -/
def Polls (gets : Nat → UInt32) (maxevents : Nat) (ep ep' : Eventpoll) (reports : List Report) :
    Prop :=
  ∃ fuel poll, pollRun gets fuel (ep, .call maxevents) = (ep', poll) ∧ poll.pc = .returned ∧
    poll.reports = reports

section

variable {gets : Nat → UInt32} {maxevents : Nat} {ep ep' ep₁ ep₂ : Eventpoll}
  {reports reports₁ reports₂ : List Report} {poll poll' : Poll}

theorem pollRun_add (gets : Nat → UInt32) (fuel more : Nat) (state : Eventpoll × Poll) :
    pollRun gets (fuel + more) state = pollRun gets more (pollRun gets fuel state) := by
  induction fuel generalizing state with
  | zero => rw [Nat.zero_add, pollRun]
  | succ fuel ih =>
    rw [Nat.add_right_comm, pollRun, pollRun]
    exact ih _

theorem pollRun_succ {state : Eventpoll × Poll} (step : ∀ got, pollStep ep poll got = state)
    (fuel : Nat) : pollRun gets (fuel + 1) (ep, poll) = pollRun gets fuel state := by
  rw [pollRun, step]

theorem pollRun_examine {x : Nat} {state : Eventpoll × Poll} (head : poll.head = .rdllink x)
    (step : pollStep ep poll (gets x) = state) (fuel : Nat) :
    pollRun gets (fuel + 1) (ep, poll) = pollRun gets fuel state := by
  rw [pollRun]
  simp only [head]
  rw [step]

theorem pollRun_returned (returned : poll.pc = .returned) (fuel : Nat) :
    pollRun gets fuel (ep, poll) = (ep, poll) := by
  induction fuel with
  | zero => rfl
  | succ fuel ih =>
    have stays (got : UInt32) : pollStep ep poll got = (ep, poll) := by simp [pollStep, returned]
    rw [pollRun_succ stays fuel]
    exact ih

theorem Polls.unique (first : Polls gets maxevents ep ep₁ reports₁)
    (second : Polls gets maxevents ep ep₂ reports₂) : ep₁ = ep₂ ∧ reports₁ = reports₂ := by
  obtain ⟨fuel₁, poll₁, run₁, returned₁, rfl⟩ := first
  obtain ⟨fuel₂, poll₂, run₂, returned₂, rfl⟩ := second
  have left := pollRun_add gets fuel₁ fuel₂ (ep, .call maxevents)
  have right := pollRun_add gets fuel₂ fuel₁ (ep, .call maxevents)
  rw [run₁, pollRun_returned returned₁] at left
  rw [run₂, pollRun_returned returned₂, Nat.add_comm, left] at right
  cases right
  exact ⟨rfl, rfl⟩

/-- No poll is made, and the ready list has these items. -/
structure Idle (ep : Eventpoll) (l : List Nat) : Prop where
  held : ep.Held l .null .null []
  closed : ep.ovflist = .unactive

/-- The item is level-triggered and has a module to ask for its events. -/
def Level (ep : Eventpoll) (i : Nat) : Prop :=
  (ep.item i).events &&& epollEt = 0 ∧ (ep.item i).rmidx ≠ -1

/-- The same settings of all items. -/
def SameSettings (ep ep' : Eventpoll) : Prop :=
  ∀ i, (ep'.item i).events = (ep.item i).events ∧ (ep'.item i).rmidx = (ep.item i).rmidx

theorem Level.of_same {i : Nat} (level : Level ep i) (same : SameSettings ep ep') :
    Level ep' i := by
  unfold Level
  rw [(same i).1, (same i).2]
  exact level

/-- A level-triggered item with an event is reported and put back. -/
theorem Level.requeues {i : Nat} (level : Level ep i) (got : UInt32) (some : got ≠ 0) :
    ∃ r, ep.report i got = Option.some r ∧ r.epi = i ∧ ep.requeues i got = true := by
  have gathered : ep.gathered i got ≠ 0 := by
    intro none
    apply some
    apply Mask.Within.eq_zero
    rw [← none, Eventpoll.gathered, if_pos level.2]
    exact Mask.within_or_right _ _
  have reported : ep.report i got = Option.some ⟨i, ep.gathered i got, (ep.item i).data⟩ :=
    if_pos gathered
  exact ⟨_, reported, rfl, (requeues_iff ep i got).mpr ⟨by simp [reported], level.1⟩⟩

theorem examine_sameSettings (ep : Eventpoll) (x : Nat) (got : UInt32) :
    SameSettings ep (ep.examine x got) := by
  intro i
  rw [ep.examine_item got i]
  split
  case isTrue same => simp [same]
  case isFalse => exact ⟨rfl, rfl⟩

/-- The walk over items that are all ready: it reports as many as there is room for and puts them
behind those already on the list. -/
theorem walk_ready {queue rest : List Nat} (held : ep.Held queue poll.head poll.tail rest)
    (at_walk : poll.pc = .walk) (room : poll.reports.length < poll.maxevents)
    (level : ∀ i ∈ rest, Level ep i) (ready : ∀ i ∈ rest, gets i ≠ 0) :
    ∃ fuel ep' poll', pollRun gets fuel (ep, poll) = (ep', poll') ∧ poll'.pc = .putBack ∧
      ep'.ovflist = ep.ovflist ∧ SameSettings ep ep' ∧
      ep'.Held (queue ++ rest.take (poll.maxevents - poll.reports.length)) poll'.head poll'.tail
        (rest.drop (poll.maxevents - poll.reports.length)) ∧
      poll'.reports.map Report.epi =
        poll.reports.map Report.epi ++ rest.take (poll.maxevents - poll.reports.length) := by
  induction rest generalizing ep poll queue with
  | nil =>
    have null : poll.head = .null := held.detached
    have step (got : UInt32) : pollStep ep poll got = (ep, { poll with pc := .putBack }) := by
      simp [pollStep, at_walk, null]
    refine ⟨1, ep, { poll with pc := .putBack }, pollRun_succ step 0, rfl, rfl,
      fun i => ⟨rfl, rfl⟩, ?_, ?_⟩
    · simpa using held
    · simp
  | cons x rest ih =>
    have head : poll.head = .rdllink x := held.detached.1
    obtain ⟨r, reported, rfl, requeued⟩ :=
      (level x (by simp)).requeues (gets x) (ready x (by simp))
    have after := held.examine (gets r.epi)
    rw [if_pos requeued] at after
    have same := examine_sameSettings ep r.epi (gets r.epi)
    have list : (ep.examine r.epi (gets r.epi)).ovflist = ep.ovflist := by
      unfold Eventpoll.examine
      cases ep.requeues r.epi (gets r.epi) <;> rfl
    by_cases full : (poll.reports ++ [r]).length ≥ poll.maxevents
    · -- the array is full: the rest stays detached
      have step : pollStep ep poll (gets r.epi) = (ep.examine r.epi (gets r.epi),
          { poll with pc := .putBack
                      head := ep.next (.rdllink r.epi)
                      reports := poll.reports ++ [r] }) := by
        have fills : poll.maxevents ≤ poll.reports.length + 1 := by simpa using full
        simp [pollStep, at_walk, head, reported, fills]
      have one : poll.maxevents - poll.reports.length = 1 := by
        simp only [List.length_append, List.length_singleton] at full
        omega
      refine ⟨1, ep.examine r.epi (gets r.epi), { poll with pc := .putBack
                                                            head := ep.next (.rdllink r.epi)
                                                            reports := poll.reports ++ [r] },
        pollRun_examine head step 0, rfl, list, same, ?_, ?_⟩
      · rw [one]
        exact after
      · rw [one]
        simp
    · have step : pollStep ep poll (gets r.epi) = (ep.examine r.epi (gets r.epi),
          { poll with head := ep.next (.rdllink r.epi), reports := poll.reports ++ [r] }) := by
        have fits : ¬ poll.maxevents ≤ poll.reports.length + 1 := by simpa using full
        simp [pollStep, at_walk, head, reported, fits]
      have fewer : poll.maxevents - poll.reports.length =
          (poll.maxevents - (poll.reports ++ [r]).length) + 1 := by
        simp only [List.length_append, List.length_singleton] at full ⊢
        omega
      obtain ⟨fuel, ep', poll', run, pc, closed, settings, holds, listed⟩ :=
        @ih (ep.examine r.epi (gets r.epi))
          { poll with head := ep.next (.rdllink r.epi), reports := poll.reports ++ [r] }
          (queue ++ [r.epi]) after at_walk (not_le.mp full)
          (fun i member => (level i (List.mem_cons_of_mem _ member)).of_same same)
          (fun i member => ready i (List.mem_cons_of_mem _ member))
      refine ⟨fuel + 1, ep', poll', (pollRun_examine head step fuel).trans run, pc,
        closed.trans list, ?_, ?_, ?_⟩
      · intro i
        exact ⟨(settings i).1.trans (same i).1, (settings i).2.trans (same i).2⟩
      · rw [fewer]
        simpa using holds
      · rw [fewer, listed]
        simp

/-- A poll of items that are all ready reports the first of them and leaves the list as it was. -/
theorem polls_ready {l : List Nat} (idle : Idle ep l) (level : ∀ i ∈ l, Level ep i)
    (ready : ∀ i ∈ l, gets i ≠ 0) (positive : 1 ≤ maxevents) :
    ∃ ep' reports, Polls gets maxevents ep ep' reports ∧ Idle ep' l ∧ SameSettings ep ep' ∧
      reports.map Report.epi = l.take maxevents := by
  have empty := idle.held.ready.hlistEmpty_iff
  by_cases none : l = []
  · have step (got : UInt32) : pollStep ep (.call maxevents) got =
        (ep, { Poll.call maxevents with pc := .returned }) := by
      simp [pollStep, Poll.call, empty.mpr none]
    refine ⟨ep, [], ⟨1, _, pollRun_succ step 0, rfl, rfl⟩, idle, fun i => ⟨rfl, rfl⟩, ?_⟩
    simp [none]
  · have nonempty : ep.hlistEmpty = false := by
      rw [← Bool.not_eq_true, empty]
      exact none
    let walking : Poll :=
      { Poll.call maxevents with pc := .walk, head := ep.next .list, tail := ep.tail }
    have begins : pollRun gets 3 (ep, .call maxevents) = (ep.detach, walking) := by
      have first (got : UInt32) : pollStep ep (.call maxevents) got =
          (ep, { Poll.call maxevents with pc := .locked }) := by
        simp [pollStep, Poll.call, nonempty]
      have second (got : UInt32) : pollStep ep { Poll.call maxevents with pc := .locked } got =
          (ep, { Poll.call maxevents with pc := .detach }) := by
        simp [pollStep, nonempty]
      have third (got : UInt32) : pollStep ep { Poll.call maxevents with pc := .detach } got =
          (ep.detach, walking) := by
        simp [pollStep, walking]
      rw [pollRun_succ first, pollRun_succ second, pollRun_succ third, pollRun]
    have settings : SameSettings ep ep.detach := fun i => ⟨rfl, rfl⟩
    have levels (i : Nat) (member : i ∈ l) : Level ep.detach i := (level i member).of_same settings
    have room : walking.reports.length < walking.maxevents := positive
    have detached : ep.detach.Held [] walking.head walking.tail l := idle.held.detach
    obtain ⟨fuel, ep', poll', run, pc, list, same, held, listed⟩ :=
      walk_ready detached rfl room levels ready
    -- the rest goes behind what was put back, and there is nothing on `ovflist`
    have back := held.putBack .null
    rw [List.nil_append, List.take_append_drop] at back
    have null : ep'.ovflist = .null := list
    have fourth (got : UInt32) : pollStep ep' poll' got =
        (ep'.putBack poll'.head poll'.tail, { poll' with pc := .merge, nepi := .null }) := by
      simp [pollStep, pc, null]
    have fifth (got : UInt32) : pollStep (ep'.putBack poll'.head poll'.tail)
        { poll' with pc := .merge, nepi := .null } got =
          ({ ep'.putBack poll'.head poll'.tail with ovflist := .unactive },
            { poll' with pc := .returned, nepi := .null }) := by
      simp [pollStep]
    have ends : pollRun gets 2 (ep', poll') =
        ({ ep'.putBack poll'.head poll'.tail with ovflist := .unactive },
          { poll' with pc := .returned, nepi := .null }) := by
      rw [pollRun_succ fourth, pollRun_succ fifth, pollRun]
    have item : (ep'.putBack poll'.head poll'.tail).item = ep'.item := by
      unfold Eventpoll.putBack
      split <;> rfl
    refine ⟨{ ep'.putBack poll'.head poll'.tail with ovflist := .unactive }, poll'.reports,
      ⟨3 + (fuel + 2), { poll' with pc := .returned, nepi := .null }, ?_, rfl, rfl⟩,
      ⟨back.congr rfl rfl rfl, rfl⟩, ?_, ?_⟩
    · rw [pollRun_add, begins, pollRun_add, run, ends]
    · intro i
      show ((ep'.putBack poll'.head poll'.tail).item i).events = _ ∧
        ((ep'.putBack poll'.head poll'.tail).item i).rmidx = _
      rw [item]
      exact same i
    · exact listed

/-- Polls one after the other, from an eventpoll on. -/
structure Rounds (gets : Nat → Nat → UInt32) (maxevents : Nat) (ep : Eventpoll)
    (run : Nat → Eventpoll) (reports : Nat → List Report) : Prop where
  first : run 0 = ep
  polls : ∀ k, Polls (gets k) maxevents (run k) (run (k + 1)) (reports k)

/-- Items that stay ready. -/
structure Steady (gets : Nat → Nat → UInt32) (ep : Eventpoll) (l : List Nat) : Prop where
  idle : Idle ep l
  level : ∀ i ∈ l, Level ep i
  ready : ∀ k, ∀ i ∈ l, gets k i ≠ 0

variable {asked : Nat → Nat → UInt32} {l : List Nat} {run : Nat → Eventpoll}
  {reported : Nat → List Report}

/-- Every poll reports the first items of the list. -/
theorem Steady.reports_eq (steady : Steady asked ep l) (positive : 1 ≤ maxevents)
    (rounds : Rounds asked maxevents ep run reported) (k : Nat) :
    Idle (run k) l ∧ SameSettings ep (run k) ∧
      (reported k).map Report.epi = l.take maxevents := by
  have outcome (k : Nat) (idle : Idle (run k) l) (same : SameSettings ep (run k)) :
      Idle (run (k + 1)) l ∧ SameSettings (run k) (run (k + 1)) ∧
        (reported k).map Report.epi = l.take maxevents := by
    have levels (i : Nat) (member : i ∈ l) : Level (run k) i :=
      (steady.level i member).of_same same
    obtain ⟨ep', reports, polls, after, settings, listed⟩ :=
      polls_ready idle levels (steady.ready k) positive
    obtain ⟨rfl, rfl⟩ := polls.unique (rounds.polls k)
    exact ⟨after, settings, listed⟩
  have state : Idle (run k) l ∧ SameSettings ep (run k) := by
    induction k with
    | zero =>
      rw [rounds.first]
      exact ⟨steady.idle, fun i => ⟨rfl, rfl⟩⟩
    | succ k ih =>
      obtain ⟨after, settings, -⟩ := outcome k ih.1 ih.2
      refine ⟨after, fun i => ?_⟩
      exact ⟨(settings i).1.trans (ih.2 i).1, (settings i).2.trans (ih.2 i).2⟩
  exact ⟨state.1, state.2, (outcome k state.1 state.2).2.2⟩

theorem Steady.exists_rounds (steady : Steady asked ep l) (positive : 1 ≤ maxevents) :
    ∃ run reports, Rounds asked maxevents ep run reports := by
  have next (k : Nat) (e : { e : Eventpoll // Idle e l ∧ ∀ i ∈ l, Level e i }) :
      ∃ e' : { e : Eventpoll // Idle e l ∧ ∀ i ∈ l, Level e i }, ∃ reports,
        Polls (asked k) maxevents e.1 e'.1 reports := by
    obtain ⟨ep', reports, polls, after, settings, -⟩ :=
      polls_ready e.2.1 e.2.2 (steady.ready k) positive
    exact ⟨⟨ep', after, fun i member => (e.2.2 i member).of_same settings⟩, reports, polls⟩
  choose after entries polls using next
  let run : Nat → { e : Eventpoll // Idle e l ∧ ∀ i ∈ l, Level e i } :=
    Nat.rec ⟨ep, steady.idle, steady.level⟩ after
  exact ⟨fun k => (run k).1, fun k => entries k (run k), rfl, fun k => polls k (run k)⟩

/-- Every item of a ready list that stays ready is reported in any `⌈n / maxevents⌉` consecutive
polls exactly when all fit in one. -/
theorem polls_fair_iff (steady : Steady asked ep l) (positive : 1 ≤ maxevents) :
    (∃ run reports, Rounds asked maxevents ep run reports) ∧
      ∀ run reports, Rounds asked maxevents ep run reports →
        ((∀ i ∈ l, ∀ k, ∃ j, k ≤ j ∧ j < k + (l.length + maxevents - 1) / maxevents ∧
            ∃ r ∈ reports j, r.epi = i) ↔ l.length ≤ maxevents) := by
  refine ⟨steady.exists_rounds positive, ?_⟩
  intro run reports rounds
  have listed (k : Nat) := (steady.reports_eq positive rounds k).2.2
  constructor
  · intro fair
    by_contra longer
    replace longer : maxevents < l.length := not_le.mp longer
    obtain ⟨j, -, -, r, member, same⟩ := fair l[maxevents] (List.getElem_mem longer) 0
    have early : l[maxevents] ∈ l.take maxevents := by
      rw [← listed j, ← same]
      exact List.mem_map_of_mem member
    obtain ⟨position, small, equal⟩ := List.mem_take_iff_getElem.mp early
    have index := steady.idle.held.ready.distinct.getElem_inj_iff.mp equal
    omega
  · intro fits i member k
    have positiveLength : 0 < l.length := List.length_pos_of_mem member
    have some : 1 ≤ (l.length + maxevents - 1) / maxevents := by
      rw [Nat.one_le_div_iff positive]
      omega
    refine ⟨k, le_refl k, by omega, ?_⟩
    have inside : i ∈ (reports k).map Report.epi := by
      rw [listed k, List.take_of_length_le fits]
      exact member
    obtain ⟨r, place, same⟩ := List.mem_map.mp inside
    exact ⟨r, place, same⟩

end

/-- Two level-triggered items on the ready list. -/
def twoReady : Eventpoll :=
  ((Sys.fresh (fun _ => 0x19) (fun i => UInt64.ofNat i) fun _ => 0).ep.hlistAddTail
    (.rdllink 0)).hlistAddTail (.rdllink 1)

theorem steady_twoReady : Steady (fun _ _ => 1) twoReady [0, 1] := by
  have empty := (inv_fresh (fun _ => 0x19) (fun i => UInt64.ofNat i) fun _ => 0).held
  have one := empty.hlistAddTail (x := 0) (by decide)
  have two := one.hlistAddTail (x := 1) (by decide)
  refine ⟨⟨two, rfl⟩, ?_, by simp⟩
  intro i _
  exact ⟨(by decide : (0x19 : UInt32) &&& epollEt = 0), (by decide : (0 : Int) ≠ -1)⟩

/-- With room for both every poll reports both. -/
theorem polls_fair_two_of_two :
    ∃ run reports, Rounds (fun _ _ => 1) 2 twoReady run reports ∧
      ∀ i ∈ [0, 1], ∀ k, ∃ j, k ≤ j ∧ j < k + ([0, 1].length + 2 - 1) / 2 ∧
        ∃ r ∈ reports j, r.epi = i := by
  obtain ⟨⟨run, reports, rounds⟩, fair⟩ := polls_fair_iff steady_twoReady (by decide : 1 ≤ 2)
  exact ⟨run, reports, rounds, (fair run reports rounds).mpr (by decide)⟩

/-- With room for one the second item is never reported. -/
theorem second_item_starves :
    ∃ run reports, Rounds (fun _ _ => 1) 1 twoReady run reports ∧
      ∀ k, ∀ r ∈ reports k, r.epi ≠ 1 := by
  obtain ⟨run, reports, rounds⟩ := steady_twoReady.exists_rounds (le_refl 1)
  refine ⟨run, reports, rounds, ?_⟩
  intro k r member same
  have listed := (steady_twoReady.reports_eq (le_refl 1) rounds k).2.2
  have inside : r.epi ∈ (reports k).map Report.epi := List.mem_map_of_mem member
  rw [listed, same] at inside
  simp at inside

end Dmm.Epoll
