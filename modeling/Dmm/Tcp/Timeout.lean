import Mathlib

/-!
# Socket time-outs

`SO_RCVTIMEO` and `SO_SNDTIMEO` are kept in milliseconds. A blocking `accept`, `recv` or `send` that
makes no progress compares the clock with the start of the call in each round, first by whole
seconds and then by milliseconds. The three calls have the comparison each for itself.

A duration is in nanoseconds here; the C code divides numbers that are not negative only.
-/

namespace Dmm.Tcp.Timeout

/-! ## Settings and readings -/

/-- `struct timeval` -/
structure Timeval where
  sec : Int
  usec : Int
  deriving DecidableEq, Repr

/-- `MAX_WAIT_TIMEOUT` -/
def maxWaitTimeout : Int := 0x7FFFFFFF

/-- Why `sbr_pick_timeout` refuses a value. -/
inductive Errno
  | einval
  | edom
  deriving DecidableEq, Repr

/-- `sbr_pick_timeout` -/
def sbrPickTimeout (optlen : Nat) (tv : Timeval) : Except Errno Int :=
  if optlen < 16 then .error .einval
  else if tv.usec < 0 ∨ 1000000 < tv.usec then .error .edom
  else if tv.sec < 0 then .ok 0
  else if (tv.sec ≠ 0 ∨ tv.usec ≠ 0) ∧ tv.sec < maxWaitTimeout / 1000 - 1 then
    .ok (tv.sec * 1000 + tv.usec / 1000)
  else .ok maxWaitTimeout

/-- A value that is accepted, not zero, and below the maximum. -/
structure Setting where
  tv : Timeval
  optlen : Nat
  ms : Int
  accepted : sbrPickTimeout optlen tv = .ok ms
  nonneg : 0 ≤ tv.sec
  below : tv.sec < maxWaitTimeout / 1000 - 1
  nonzero : tv.sec ≠ 0 ∨ tv.usec ≠ 0

/-- The length of a setting. -/
def Setting.length (t : Setting) : Int := (t.tv.sec * 1000000 + t.tv.usec) * 1000

/-- A reading of `CLOCK_MONOTONIC`. -/
structure Timespec where
  sec : Nat
  nsec : Nat
  lt : nsec < 1000000000
  deriving DecidableEq, Repr

/-- The nanoseconds of a reading. -/
def Timespec.ns (t : Timespec) : Int := t.sec * 1000000000 + t.nsec

/-- The reading at the start of a call and those of its rounds. -/
structure Rounds where
  start : Timespec
  readings : List Timespec
  monotone : (start :: readings).Pairwise fun r t => r.ns ≤ t.ns

/-- The elapsed milliseconds as all three calls compute them. -/
def timediffMs (start now : Timespec) : Int :=
  let timediffSec : Int := now.sec - start.sec
  if start.nsec < now.nsec then timediffSec * 1000 + ((now.nsec : Int) - start.nsec) / 1000000
  else timediffSec * 1000 - ((start.nsec : Int) - now.nsec) / 1000000

/-- Both comparisons. -/
def expired (thrSec thrMs : Int) (start now : Timespec) : Bool :=
  decide (thrSec ≤ (now.sec : Int) - start.sec ∧ thrMs < timediffMs start now)

/-- A round of `sbr_dequeue_buf`. -/
def sbrDequeueBuf (timeout : Int) (start now : Timespec) : Bool :=
  decide (0 < timeout) && expired (timeout / 1000) timeout start now

/-- `sbr_tcp_recv_is_timeout` -/
def sbrTcpRecvIsTimeout (timeout : Int) (start now : Timespec) : Bool :=
  decide (timeout ≠ 0) && expired (timeout / 1000) timeout start now

/-- A round of `sbr_tcp_wait_new_conn`, which reads the clock at its start only for a whole
second. -/
def sbrTcpWaitNewConn (timeout : Int) (start now : Timespec) : Bool :=
  sbrTcpRecvIsTimeout timeout (if timeout / 1000 ≠ 0 then start else ⟨0, 0, by decide⟩) now

/-- `sbr_tcp_send_is_timeout` -/
def sbrTcpSendIsTimeout (timeout : Int) (start now : Timespec) : Bool :=
  decide (timeout ≠ 0) && expired ((timeout + 240) / 1024) timeout start now

/-- A blocking call. -/
inductive Call
  | accept
  | recv
  | send
  deriving DecidableEq, Repr

/-- Does a call give up in a round. -/
def Call.givesUp : Call → (timeout : Int) → (start now : Timespec) → Bool
  | .accept => sbrTcpWaitNewConn
  | .recv => sbrDequeueBuf
  | .send => sbrTcpSendIsTimeout

/-! ## When the calls give up in time -/

/-- A round ends the call a millisecond after the time-out, and not before it. -/
def InTime (c : Call) (t : Setting) (start now : Timespec) : Prop :=
  (t.length + 1000000 ≤ now.ns - start.ns → c.givesUp t.ms start now = true) ∧
    (now.ns - start.ns ≤ t.length → c.givesUp t.ms start now = false)

/-- The whole milliseconds of a setting. -/
def Setting.whole (t : Setting) : Int := t.tv.sec * 1000 + t.tv.usec / 1000

/-- The seconds have moved on as far as the first comparison asks. -/
def Call.reaches (c : Call) (t : Setting) (start now : Timespec) : Prop :=
  c = .send → t.whole + 240 < 1024 * ((now.sec : Int) - start.sec + 1)

/-- A setting of less than a millisecond is not used for long enough to expire. An `accept` of less
than a second comes in the first milliseconds of the clock, or its rounds late. In all other cases
the seconds of a `send` have moved on once it should give up, and no round falls between the whole
milliseconds of the setting and its end with a smaller part of a second than the start. -/
def Meets (c : Call) (t : Setting) (start now : Timespec) : Prop :=
  if t.whole = 0 then now.ns - start.ns < t.length + 1000000
  else if c = .accept ∧ t.whole < 1000 then
    now.ns - start.ns ≤ t.length → now.ns < (t.whole + 1) * 1000000
  else
    (t.length + 1000000 ≤ now.ns - start.ns → c.reaches t start now) ∧
      ¬(now.nsec ≤ start.nsec ∧ t.whole * 1000000 < now.ns - start.ns ∧
        now.ns - start.ns ≤ t.length ∧ c.reaches t start now)

theorem Setting.ms_eq (t : Setting) : 0 ≤ t.tv.usec ∧ t.ms = t.whole := by
  have accepted := t.accepted
  have nonneg := t.nonneg
  have below := t.below
  have nonzero := t.nonzero
  unfold sbrPickTimeout at accepted
  unfold Setting.whole
  split_ifs at accepted with short range negative used
  · omega
  · exact ⟨by omega, (Except.ok.inj accepted).symm⟩
  · exact absurd ⟨nonzero, below⟩ used

/-- The computed milliseconds are those elapsed, rounded up if the part of a second has become
smaller. -/
theorem lt_timediffMs_iff (thr : Int) (start now : Timespec) :
    thr < timediffMs start now ↔
      if start.nsec < now.nsec then (thr + 1) * 1000000 ≤ now.ns - start.ns
      else thr * 1000000 < now.ns - start.ns := by
  unfold timediffMs Timespec.ns
  dsimp only
  split_ifs <;> omega

/-- Both comparisons, where the seconds asked for have passed when a millisecond more than the
time-out has. -/
theorem expired_inTime_iff {thrSec ms length : Int} {start now : Timespec}
    (whole : ms * 1000000 ≤ length ∧ length < (ms + 1) * 1000000) :
    ((length + 1000000 ≤ now.ns - start.ns → expired thrSec ms start now = true) ∧
        (now.ns - start.ns ≤ length → expired thrSec ms start now = false)) ↔
      (length + 1000000 ≤ now.ns - start.ns → thrSec ≤ (now.sec : Int) - start.sec) ∧
        ¬(now.nsec ≤ start.nsec ∧ ms * 1000000 < now.ns - start.ns ∧
          now.ns - start.ns ≤ length ∧ thrSec ≤ (now.sec : Int) - start.sec) := by
  simp only [expired, decide_eq_true_eq, decide_eq_false_iff_not, lt_timediffMs_iff]
  split_ifs <;> omega

/-- The seconds of a time-out have passed when a millisecond more than it has. -/
theorem seconds_pass {ms length : Int} {start now : Timespec}
    (whole : ms * 1000000 ≤ length) (late : ms * 1000000 < now.ns - start.ns)
    (next : length + 1000000 ≤ now.ns - start.ns ∨ now.nsec ≤ start.nsec) :
    ms / 1000 ≤ (now.sec : Int) - start.sec := by
  have startLt := start.lt
  have nowLt := now.lt
  unfold Timespec.ns at *
  omega

/-- A round is in time exactly if it meets the condition. -/
theorem inTime_iff (c : Call) (t : Setting) {start now : Timespec} (after : start.ns ≤ now.ns) :
    InTime c t start now ↔ Meets c t start now := by
  obtain ⟨usec, is⟩ := t.ms_eq
  have nonneg := t.nonneg
  have whole : (t.whole * 1000000 ≤ t.length ∧ t.length < (t.whole + 1) * 1000000) ∧
      0 ≤ t.whole := by
    unfold Setting.whole Setting.length
    omega
  obtain ⟨whole, nonneg⟩ := whole
  unfold InTime Meets Call.reaches
  rw [is]
  generalize t.length = length at *
  generalize t.whole = ms at *
  by_cases zero : ms = 0
  · have never : c.givesUp ms start now = false := by
      subst zero
      cases c <;> rfl
    simp only [zero, if_true] at never ⊢
    simp only [never, Bool.false_eq_true, imp_false, implies_true, and_true, Int.not_le]
  · rw [if_neg zero]
    have set : decide (ms ≠ 0) = true := by simpa using zero
    have positive : decide (0 < ms) = true := by simpa using by omega
    cases c with
    | accept =>
      simp only [Call.givesUp, sbrTcpWaitNewConn, sbrTcpRecvIsTimeout, set, Bool.true_and]
      by_cases small : ms < 1000
      · rw [if_neg (by omega), if_pos ⟨trivial, small⟩]
        simp only [expired, decide_eq_true_eq, decide_eq_false_iff_not, lt_timediffMs_iff,
          Timespec.ns] at *
        split_ifs <;> omega
      · rw [if_pos (by omega), if_neg (by tauto), expired_inTime_iff whole]
        have passed := @seconds_pass _ _ start now whole.1
        simp only [reduceCtorEq, false_implies, implies_true, and_true, true_and]
        omega
    | recv =>
      simp only [Call.givesUp, sbrDequeueBuf, positive, Bool.true_and]
      rw [if_neg (by simp), expired_inTime_iff whole]
      have passed := @seconds_pass _ _ start now whole.1
      simp only [reduceCtorEq, false_implies, implies_true, and_true, true_and]
      omega
    | send =>
      simp only [Call.givesUp, sbrTcpSendIsTimeout, set, Bool.true_and]
      rw [if_neg (by simp), expired_inTime_iff whole]
      have reached : (ms + 240) / 1024 ≤ (now.sec : Int) - start.sec ↔
          ms + 240 < 1024 * ((now.sec : Int) - start.sec + 1) := by omega
      simp only [reached, true_implies]

/-- Every round of a blocking call is in time exactly if every round meets the condition. -/
theorem timeouts_iff (c : Call) (t : Setting) (rounds : Rounds) :
    (∀ now ∈ rounds.readings, InTime c t rounds.start now) ↔
      ∀ now ∈ rounds.readings, Meets c t rounds.start now :=
  forall₂_congr fun _ read => inTime_iff c t (List.rel_of_pairwise_cons rounds.monotone read)

/-- An `accept` with half a second gives up in its first round, ten seconds after the start of the
clock. -/
theorem accept_gives_up :
    ∃ (t : Setting) (start : Timespec), t.length = 500000000 ∧
      Call.accept.givesUp t.ms start start = true :=
  ⟨⟨⟨0, 500000⟩, 16, 500, rfl, by decide, by decide, .inr (by decide)⟩, ⟨10, 0, by decide⟩,
    rfl, rfl⟩

end Dmm.Tcp.Timeout
