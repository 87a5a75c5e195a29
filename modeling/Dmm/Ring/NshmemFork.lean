import Dmm.Ring.NshmemConcurrent

/-!
# Fork recovery of the process-local ring

A child process inherits the ring in the middle of its parent's calls: a reservation or a
claim may be open that nobody will ever close. The flags still name the parent, and the
first operation of the child on a side sets `head` back to `tail` (`recovered`).

The recovery works where the index is read after it, or read again because the
compare-and-swap fails. The single-threaded operations read `head` before the recovery and
use it afterwards, and the multi-producer enqueue tests for room before the recovery; with
an open reservation or claim they go wrong (`forkMay` leaves these calls out).
-/

namespace Dmm.Ring.Nshmem

open Dmm.Machine Dmm.Word

variable {ι : Type} {k t f : Nat} {item : Nat → Obj} {pid : UInt32} {fl : Flavour ι} {g : Ghost ι}
  {r r' : MemRing} {log : List Event} {side : Side}

/-- The calls a child can make: no open reservation or claim is in the way of an operation
that reads `head` before the recovery. -/
def forkMay : Call → MemRing → Prop
  -- an open reservation does not use up the last free slot
  | .inl (.inl _), r => r.prodHead = r.prodTail ∨ ¬ 1 > r.size + r.consTail - r.prodHead
  | .inl (.inr _), r => r.prodHead = r.prodTail
  | .inr (.inl _), _ => True
  | .inr (.inr _), r => r.consHead = r.consTail

/-- The queue a ring stands for in a child: each side that the child has touched is settled,
and at most one reservation of the parent is open. -/
structure Inherited (k : Nat) (pid : UInt32) (t f : Nat) (item : Nat → Obj) (r : MemRing) :
    Prop where
  rests : Rests k t f item r
  owned : ∀ side, Owned pid r side
  opened : r.prodHead = word f ∨ (r.prodHead = word (f + 1) ∧ f + 1 ≤ t + 2 ^ k)

theorem Owned.untouched (owned : Owned pid r side) (same : Untouched r r' side) :
    Owned pid r' side := by
  intro flag
  exact (owned (same.hflag_eq.symm.trans flag)).untouched same

/-- A side that a call has settled or has not changed is owned if it was. -/
theorem Owned.after (owned : Owned pid r side) (left : Settled pid r' side ∨ r' = r) :
    Owned pid r' side := by
  rcases left with settled | rfl
  · exact settled.owned
  · exact owned

theorem Settled.recovered_eq (settled : Settled pid r side) : recovered pid r side = r :=
  if_pos settled.hflag_eq

/-- A lone multi-producer enqueue that finds an open reservation: it gives up the position it
has read and starts again after the recovery. -/
theorem mp_recovers (rests : Rests k t f item r) (fits : k < 32) (owned : Owned pid r .prod)
    (opened : r.prodHead = word (f + 1)) (room : ¬ 1 > r.size + r.consTail - r.prodHead)
    (below : f < t + 2 ^ k) (obj : Obj) :
    Trace (mpEnqueue pid) (.loadHead obj) r [.reserved obj] ⟨1, []⟩
      (put (recovered pid r .prod) obj) := by
  have settled := owned.recovered
  have rests' := rests.recovered pid .prod
  have head : (recovered pid r .prod).prodHead = word f :=
    settled.head_eq.trans rests'.prodTail_eq
  have moved : (recovered pid r .prod).prodHead ≠ r.prodHead := by
    rw [head, opened, ne_eq, word_inj (by omega) (by omega)]
    omega
  have again := mp_accepts rests' fits settled.owned settled.head_eq below obj
  rw [settled.recovered_eq] at again
  refine .silent (.loadTail obj r.prodHead) r rfl rfl ?_
  refine .silent (.recov obj r.prodHead .loadFlag) r
    (by simp only [mpEnqueue, mpStep, if_neg room]) rfl ?_
  apply recov_runs .prod pid (MpPc.recov obj r.prodHead) (.wait obj r.prodHead .loadTail)
    (fun _ _ => rfl) (fun _ _ => rfl)
  apply wait_runs .prod (MpPc.wait obj r.prodHead) (.cas obj r.prodHead) (fun _ _ => rfl)
    (fun _ _ => rfl) settled
  exact .silent (.loadHead obj) _ (by simp only [mpEnqueue, mpStep, if_neg moved])
    (by simp only [mpEnqueue, if_neg moved]) again

/-- A multi-producer enqueue of the child behaves as the queue. -/
theorem Inherited.mp_call (inherited : Inherited k pid t f item r) (fits : k < 32) {obj : Obj}
    (may : forkMay (.inl (.inl obj)) r) :
    PutCall k t f item pid r (mpEnqueue pid).Calls obj := by
  have rests := inherited.rests
  have owned := inherited.owned .prod
  by_cases head : r.prodHead = r.prodTail
  · exact Nshmem.mp_call rests fits owned head obj
  · rcases inherited.opened with shut | ⟨opened, limit⟩
    · exact absurd (shut.trans rests.prodTail_eq.symm) head
    · have room := may.resolve_left head
      exact putCall_accepted rests fits owned limit
        (mp_recovers rests fits owned opened room limit obj)

/-- The end of the published elements is known from where they begin. -/
theorem Rests.end_unique {f' : Nat} {item' : Nat → Obj} (rests : Rests k t f item r)
    (fits : k < 32) (rests' : Rests k t f' item' r) : f = f' := by
  have bound : 2 ^ k < 2 ^ 32 := Nat.pow_lt_pow_right (by decide) fits
  have := rests.ordered
  have := rests.limit
  have := rests'.ordered
  have := rests'.limit
  have same : word f = word f' := rests.prodTail_eq.symm.trans rests'.prodTail_eq
  exact (word_inj (by omega) (by omega)).mp same

/-- The queue a ring stands for in a child process. -/
def StandsForked (k : Nat) (pid : UInt32) (q : List Obj) (r : MemRing) : Prop :=
  ∃ t f item, Inherited k pid t f item r ∧ q = queue t f item

/-- A complete enqueue keeps the ring standing for the queue in the child. -/
theorem PutCall.simulates_forked {calls : Obj → MemRing → Result → MemRing → Prop} {obj : Obj}
    (call : PutCall k t f item pid r calls obj) (fits : k < 32)
    (inherited : Inherited k pid t f item r) :
    ∃ res r' q', calls obj r res r' ∧ Fifo.Step (2 ^ k) (queue t f item) (.put obj) res q' ∧
      StandsForked k pid q' r' := by
  obtain ⟨ret, r', f', item', run, rests', step, left, same⟩ := call
  have owned : ∀ side, Owned pid r' side := by
    intro side
    cases side with
    | prod => exact (inherited.owned .prod).after left
    | cons => exact (inherited.owned .cons).untouched same
  have opened : r'.prodHead = word f' ∨ (r'.prodHead = word (f' + 1) ∧ f' + 1 ≤ t + 2 ^ k) := by
    rcases left with settled | rfl
    · exact .inl (settled.head_eq.trans rests'.prodTail_eq)
    · have stays := inherited.rests.end_unique fits rests'
      exact stays ▸ inherited.opened
  exact ⟨_, r', _, run, step, t, f', item', ⟨rests', owned, opened⟩, rfl⟩

/-- A complete dequeue keeps the ring standing for the queue in the child. -/
theorem TakeCall.simulates_forked {calls : UInt32 → MemRing → Result → MemRing → Prop}
    {n : UInt32} (call : TakeCall k t f item pid r calls n)
    (inherited : Inherited k pid t f item r) :
    ∃ res r' q', calls n r res r' ∧
      Fifo.Step (2 ^ k) (queue t f item) (.take n.toNat) res q' ∧ StandsForked k pid q' r' := by
  obtain ⟨r', t', run, rests', left, later, settled, same⟩ := call
  have owned : ∀ side, Owned pid r' side := by
    intro side
    cases side with
    | prod => exact (inherited.owned .prod).untouched same
    | cons => exact (inherited.owned .cons).after settled
  have head : r'.prodHead = r.prodHead := same.head_eq
  have opened : r'.prodHead = word f ∨ (r'.prodHead = word (f + 1) ∧ f + 1 ≤ t' + 2 ^ k) := by
    rw [head]
    rcases inherited.opened with shut | ⟨opened, limit⟩
    · exact .inl shut
    · exact .inr ⟨opened, by omega⟩
  exact ⟨_, r', _, run, .taken, t', f, item, ⟨rests', owned, opened⟩, left.symm⟩

/-- Every call that may be made behaves as the queue the ring stands for in the child. -/
theorem fork_simulates (fits : k < 32) (q : List Obj) (r : MemRing) (c : Call)
    (stands : StandsForked k pid q r) (may : forkMay c r) :
    ∃ res r' q', (ops pid).Calls c r res r' ∧ Fifo.Step (2 ^ k) q (queueOp c) res q' ∧
      StandsForked k pid q' r' := by
  obtain ⟨t, f, item, inherited, rfl⟩ := stands
  match c, may with
  | .inl (.inl obj), may =>
    obtain ⟨res, r', q', call, step, stands⟩ :=
      (inherited.mp_call fits may).simulates_forked fits inherited
    exact ⟨res, r', q', (call.inl _).inl _, step, stands⟩
  | .inl (.inr obj), head =>
    obtain ⟨res, r', q', call, step, stands⟩ :=
      (sp_call inherited.rests fits (inherited.owned .prod) head obj).simulates_forked fits
        inherited
    exact ⟨res, r', q', (call.inr _).inl _, step, stands⟩
  | .inr (.inl n), _ =>
    obtain ⟨res, r', q', call, step, stands⟩ :=
      (mc_call inherited.rests fits (inherited.owned .cons) n).simulates_forked inherited
    exact ⟨res, r', q', (call.inl _).inr _, step, stands⟩
  | .inr (.inr n), head =>
    obtain ⟨res, r', q', call, step, stands⟩ :=
      (sc_call inherited.rests fits (inherited.owned .cons) head n).simulates_forked inherited
    exact ⟨res, r', q', (call.inr _).inr _, step, stands⟩

theorem Tracks.inherited {parent : UInt32} (tracks : Tracks k parent fl g r log)
    (differ : pid ≠ parent) :
    Inherited k pid g.consTail g.prodTail (fun q => (reservedOf g.log).getD q 0) r := by
  constructor
  · exact tracks.rests
  · intro side own
    exact absurd (own.symm.trans (tracks.hflag_eq side)) differ
  · rw [tracks.prodHead_eq]
    have limit := tracks.limit
    cases holder : g.producer with
    | none => exact .inl (congrArg word (tracks.producer_none holder))
    | some j =>
      have one := tracks.producer_some j holder
      exact .inr ⟨congrArg word one, by omega⟩

/-- The child's indices are equal pairwise on each side that it has touched. -/
def Paired (pid : UInt32) (r : MemRing) : Prop :=
  ∀ side, hflag r side = pid → head r side = tail r side

/-- For every state of the ring that a fork can copy, in the middle of any calls of the
parent: as long as no open reservation or claim is in the way of an operation that reads
`head` before the recovery, every run of complete calls of the child is a run of the queue of
the published elements, every call returns, and the indices the child has recovered stay
equal pairwise. -/
theorem fork_refines_fifo [DecidableEq ι] (fl : Flavour ι) (ring : MemRing) (k : Nat)
    (fits : k < 32) (addrbase : Nat) (memtype flag : UInt8) (parent child : UInt32)
    (differ : child ≠ parent) (p : Pool ι Pc MemRing Event)
    (reach : Reach (ops parent) (fun p a => fewPerCall fl p a)
      (Pool.fresh (memRingInit ring (word (2 ^ k)) addrbase memtype flag parent)) p) :
    Fifo.Refines (ops child) queueOp forkMay (2 ^ k) p.shared (published p.shared) ∧
      ∀ calls r, Session (ops child) forkMay p.shared calls r → Paired child r := by
  obtain ⟨g, tracks, _⟩ := reach_tracked fl ring fits addrbase memtype flag parent reach
  have inherited := tracks.inherited differ
  have stands : StandsForked k child (published p.shared) p.shared :=
    ⟨_, _, _, inherited, inherited.rests.published_eq fits⟩
  constructor
  · exact Fifo.refines_of_simulation (StandsForked k child) (fork_simulates fits) stands
  · intro calls r session
    have stands' : ∃ q, StandsForked k child q r := by
      apply session.invariant (P := fun r => ∃ q, StandsForked k child q r)
      · rintro c res s s' ⟨q, stands⟩ may call
        obtain ⟨_, _, q', call', _, stands'⟩ := fork_simulates fits q s c stands may
        obtain ⟨_, rfl⟩ := Returns.unique call call'
        exact ⟨q', stands'⟩
      · exact ⟨_, stands⟩
    obtain ⟨_, _, _, _, inherited', _⟩ := stands'
    intro side own
    exact (inherited'.owned side own).head_eq

/-- Thread 0 has enqueued; thread 1 has claimed the element and thread 2 has reserved the next
slot, and both pause there. -/
def forkSchedule : List (Action (Fin 3) Call) :=
  .call 0 (.inl (.inl 5)) :: List.replicate 11 (.access 0) ++
    .call 1 (.inr (.inl 1)) :: List.replicate 9 (.access 1) ++
    .call 2 (.inl (.inl 6)) :: List.replicate 8 (.access 2)

/-- A fork with an open reservation and an open claim. -/
theorem fork_refines_fifo_open :
    ∃ p : Pool (Fin 3) Pc MemRing Event,
      Reach (ops 7) (fun p a => fewPerCall ⟨none, none⟩ p a)
        (Pool.fresh (memRingInit default (word (2 ^ 3)) 0 0 0 7)) p ∧
      p.shared.prodHead ≠ p.shared.prodTail ∧ p.shared.consHead ≠ p.shared.consTail ∧
      Fifo.Refines (ops 9) queueOp forkMay (2 ^ 3) p.shared (published p.shared) ∧
      ∀ calls r, Session (ops 9) forkMay p.shared calls r → Paired 9 r := by
  obtain ⟨p, reach, reserved, claimed⟩ := Pool.exec_reaches (ops 7) (fewPerCall ⟨none, none⟩)
    (Pool.fresh (memRingInit default (word (2 ^ 3)) 0 0 0 7)) forkSchedule
    (fun p => p.shared.prodHead ≠ p.shared.prodTail ∧ p.shared.consHead ≠ p.shared.consTail)
    (by decide +kernel)
  exact ⟨p, reach, reserved, claimed,
    fork_refines_fifo ⟨none, none⟩ default 3 (by decide) 0 0 0 7 9 (by decide) p reach⟩

/-- The lone producer has moved `prod.head` and pauses before it writes the slot. -/
def loneSchedule : List (Action (Fin 2) Call) :=
  .call 0 (.inl (.inr 5)) :: List.replicate 4 (.access 0)

/-- Calls with their results can be compared. -/
instance : DecidableEq (Call × Result) := inferInstance

/-- The parent forks while its lone producer is inside. The child enqueues 6 and dequeues: it
gets the slot that the parent had reserved and never written. -/
theorem fork_delivers_unpublished :
    ∃ p : Pool (Fin 2) Pc MemRing Event,
      Reach (ops 7) (fun p a => fewPerCall ⟨some 0, none⟩ p a)
        (Pool.fresh (memRingInit default 8 0 0 0 7)) p ∧
      ¬ Fifo.Refines (ops 9) queueOp anyCall 8 p.shared (published p.shared) := by
  obtain ⟨p, reach, empty, ran⟩ := Pool.exec_reaches (ops 7) (fewPerCall ⟨some 0, none⟩)
    (Pool.fresh (memRingInit default 8 0 0 0 7)) loneSchedule
    (fun p => published p.shared = [] ∧
      (ops 9).evalAll 20 p.shared [.inl (.inr 6), .inr (.inl 1)] =
        some [(.inl (.inr 6), ⟨1, []⟩), (.inr (.inl 1), ⟨1, [0xFFFFF80000000000]⟩)])
    (by decide +kernel)
  refine ⟨p, reach, fun refines => ?_⟩
  rw [empty] at refines
  obtain ⟨r, session⟩ := Code.evalAll_session (fun c s => (trivial : anyCall c s)) ran
  obtain ⟨⟨_, explained⟩, _⟩ := refines _ _ session
  cases explained with
  | cons first rest =>
    cases rest with
    | cons second _ =>
      have items := Fifo.Step.items_of_take (n := 1) second
      cases first with
      | accepted => simp at items

end Dmm.Ring.Nshmem
