import Dmm.Ring.NshmemConcurrent

/-!
# Order of delivery in the process-local ring

What the tracked positions say about the elements: they are delivered in the order in which
their slots were reserved, each once, none is overwritten before it is delivered, and none
is lost. The bound on the length of a call counts the claimed elements as well as the
reservations: a consumer that sleeps while 2³² elements are claimed takes an element that
has been delivered already, although one reservation fewer was made meanwhile.
-/

namespace Dmm.Ring.Nshmem

open Dmm.Machine Dmm.Word

variable {ι : Type} {k : Nat} {pid : UInt32} {fl : Flavour ι} {g : Ghost ι} {r : MemRing}
  {log : List Event} {i : ι} {b : Nat}

/-- The object and the index a thread is about to write. -/
def writing : Option Pc → Option (Obj × UInt32)
  | some (.inl (.inl (.write obj producerHead))) => some (obj, producerHead)
  | some (.inl (.inr (.write obj producerHead))) => some (obj, producerHead)
  | _ => none

/-- The number and the elements a dequeue is about to return. -/
def returning : Option Pc → Option (UInt32 × List Obj)
  | some (.inr (.inl (.publish _ num out))) => some (num, out)
  | some (.inr (.inr (.storeTail _ inum out))) => some (inum, out)
  | _ => none

/-- Every element is delivered once, in the order of the reservations. -/
structure Orderly (k : Nat) (pid : UInt32) (p : Pool ι Pc MemRing Event) : Prop where
  delivered : deliveredOf p.log <+: reservedOf p.log
  written : ∀ i obj producerHead, writing (p.thread i) = some (obj, producerHead) →
    ∃ earlier, reservedOf p.log = earlier ++ [obj] ∧
      (producerHead &&& p.shared.mask).toNat = earlier.length % 2 ^ k ∧
      ∀ q, (deliveredOf p.log).length ≤ q → q < earlier.length →
        q % 2 ^ k ≠ earlier.length % 2 ^ k
  returned : ∀ i num out, returning (p.thread i) = some (num, out) →
    out.length = num.toNat ∧ out <:+ deliveredOf p.log
  kept : p.Quiet → reservedOf p.log = deliveredOf p.log ++ published p.shared
  resumed : p.Quiet → Fifo.Refines (ops pid) queueOp anyCall (2 ^ k) p.shared (published p.shared)

theorem queue_getD (elements : List Obj) {t f : Nat} (inside : f ≤ elements.length) :
    queue t f (fun q => elements.getD q 0) = (elements.take f).drop t := by
  apply List.ext_getElem
  · simp [queue, inside]
  · intro i _ _
    have below : t + i < elements.length := by
      simp only [List.length_drop, List.length_take] at *
      omega
    simp [queue, below]

/-- What a tracked ring publishes, when nobody is inside. -/
theorem Tracks.kept (tracks : Tracks k pid fl g r log) (fits : k < 32)
    (outside : ∀ side, g.holder side = none) :
    reservedOf log = deliveredOf log ++ published r := by
  have shut : g.prodHead = g.prodTail := tracks.producer_none (outside .prod)
  have retired : g.consHead = g.consTail := tracks.consumer_none (outside .cons)
  have all : g.read = g.consTail := by
    have := tracks.consTail_le
    have := tracks.read_le
    omega
  obtain ⟨rest, split⟩ := tracks.delivered
  have elements : published r = (reservedOf g.log).drop g.read := by
    rw [tracks.rests.published_eq fits, queue_getD _ (Nat.le_of_eq shut.symm), ← shut, all,
      Ghost.prodHead, List.take_length]
  rw [elements, ← tracks.log_eq, ← split, Ghost.read, List.drop_left]

theorem Tracks.settled (tracks : Tracks k pid fl g r log) {side : Side}
    (outside : g.holder side = none) : Settled pid r side := by
  constructor
  · exact tracks.hflag_eq side
  · exact tracks.tflag_eq side
  · rw [tracks.head_eq, tracks.tail_eq]
    cases side with
    | prod => exact congrArg word (tracks.producer_none outside)
    | cons => exact congrArg word (tracks.consumer_none outside)

/-- The slot a producer is about to write is the place of no other element that is still to
be delivered. -/
theorem Reserved.spared {obj : Obj} {h : UInt32} (reserved : Reserved g i obj h)
    (tracks : Tracks k pid fl g r log) (fits : k < 32) :
    ∃ earlier, reservedOf log = earlier ++ [obj] ∧
      (h &&& r.mask).toNat = earlier.length % 2 ^ k ∧
      ∀ q, (deliveredOf log).length ≤ q → q < earlier.length →
        q % 2 ^ k ≠ earlier.length % 2 ^ k := by
  have one : (reservedOf g.log).length = g.prodTail + 1 := tracks.producer_some i reserved.inside
  have length : ((reservedOf g.log).take g.prodTail).length = g.prodTail := by
    rw [List.length_take]
    omega
  refine ⟨(reservedOf g.log).take g.prodTail, ?_, ?_, ?_⟩
  · rw [← tracks.log_eq]
    conv_lhs => rw [← List.take_length (l := reservedOf g.log), one]
    rw [List.take_add_one, reserved.object]
    rfl
  · rw [length, reserved.head, tracks.mask_eq, toNat_and_word g.prodTail (by omega)]
  · intro q undelivered before
    rw [← tracks.log_eq] at undelivered
    rw [length] at before ⊢
    have retired : g.consTail ≤ (deliveredOf g.log).length := tracks.consTail_le
    have limit : (reservedOf g.log).length ≤ g.consTail + 2 ^ k := tracks.limit
    exact (mod_ne_of_window before (by omega)).symm

theorem Copying.returned {h num : UInt32} {out : List Obj} (copying : Copying k g i h num [] out)
    (tracks : Tracks k pid fl g r log) : out.length = num.toNat ∧ out <:+ deliveredOf log := by
  have all : (deliveredOf g.log).length = g.consHead := copying.read_all tracks
  have number := copying.number
  constructor
  · rw [copying.out_eq, List.length_drop]
    omega
  · rw [copying.out_eq, ← tracks.log_eq]
    exact List.drop_suffix _ _

theorem Placed.writes {l : Option Pc} {obj : Obj} {h : UInt32} (placed : Placed k pid fl g i b l)
    (writes : writing l = some (obj, h)) : Reserved g i obj h := by
  unfold writing at writes
  split at writes
  · obtain ⟨rfl, rfl⟩ := Prod.mk.inj (Option.some.inj writes)
    exact placed.2.2.2
  · obtain ⟨rfl, rfl⟩ := Prod.mk.inj (Option.some.inj writes)
    exact placed.2.2
  · cases writes

/-- A thread about to return from a dequeue has copied what it has claimed. -/
theorem Placed.returns {l : Option Pc} {num : UInt32} {out : List Obj}
    (placed : Placed k pid fl g i b l) (returns : returning l = some (num, out)) :
    ∃ h, Copying k g i h num [] out := by
  unfold returning at returns
  split at returns
  · obtain ⟨rfl, rfl⟩ := Prod.mk.inj (Option.some.inj returns)
    exact ⟨_, placed.2.2.2⟩
  · obtain ⟨rfl, rfl⟩ := Prod.mk.inj (Option.some.inj returns)
    exact ⟨_, placed.2.2⟩
  · cases returns

/-- A pool whose positions are tracked is orderly. -/
theorem orderly_of_tracked {p : Pool ι Pc MemRing Event} (fits : k < 32)
    (tracked : Annotated (Tracks k pid fl) (Placed k pid fl) p) : Orderly k pid p := by
  obtain ⟨g, tracks, placed⟩ := tracked
  have nobody (quiet : p.Quiet) (side : Side) : g.holder side = none := by
    cases holder : g.holder side with
    | none => rfl
    | some i =>
      have outside := placed i
      rw [quiet i] at outside
      exact absurd holder (outside side)
  constructor
  · rw [← tracks.log_eq]
    exact tracks.delivered
  · intro i obj producerHead writes
    exact ((placed i).writes writes).spared tracks fits
  · intro i num out returns
    obtain ⟨h, copying⟩ := (placed i).returns returns
    exact copying.returned tracks
  · intro quiet
    exact tracks.kept fits (nobody quiet)
  · intro quiet
    apply Fifo.refines_of_simulation (StandsFor k pid)
    · intro q r c stands _
      exact ops_simulate fits q r c stands
    · exact ⟨_, _, _, tracks.rests, tracks.settled (nobody quiet .prod),
        tracks.settled (nobody quiet .cons), tracks.rests.published_eq fits⟩

/-- For every power-of-two size of 32 bits, every flavour, every number of threads of the
process and every interleaving of their accesses: while fewer than 2³² slots are reserved and
fewer than 2³² elements claimed during each call, elements are delivered in the order of the
reservations, each once, and no slot is written before its element is delivered. -/
theorem nshmem_orderly [DecidableEq ι] (fl : Flavour ι) (ring : MemRing) (k : Nat) (fits : k < 32)
    (addrbase : Nat) (memtype flag : UInt8) (pid : UInt32) (p : Pool ι Pc MemRing Event)
    (reach : Reach (ops pid) (fun p a => fewPerCall fl p a)
      (Pool.fresh (memRingInit ring (word (2 ^ k)) addrbase memtype flag pid)) p) :
    Orderly k pid p :=
  orderly_of_tracked fits (reach_tracked fl ring fits addrbase memtype flag pid reach)

/-- Threads 0 and 2 meet at the first slot, which thread 2 gets; thread 0 gets the second and
pauses before it writes it, while thread 1 takes the first element. -/
def metSchedule : List (Action (Fin 3) Call) :=
  .call 0 (.inl (.inl 5)) :: .call 2 (.inl (.inl 6)) ::
    List.replicate 7 (.access 0) ++ List.replicate 8 (.access 2) ++ .access 0 ::
    List.replicate 3 (.access 2) ++ List.replicate 8 (.access 0) ++
    .call 1 (.inr (.inl 1)) :: List.replicate 12 (.access 1)

/-- Two producers that met and a consumer, in a ring of two slots. -/
theorem nshmem_orderly_met :
    ∃ p : Pool (Fin 3) Pc MemRing Event,
      Reach (ops 7) (fun p a => fewPerCall ⟨none, none⟩ p a)
        (Pool.fresh (memRingInit default (word (2 ^ 1)) 0 0 0 7)) p ∧
      p.log = [.reserved 6, .reserved 5, .claimed 1, .delivered 6] ∧
      writing (p.thread 0) = some (5, 1) ∧ returning (p.thread 1) = some (1, [6]) ∧
      Orderly 1 7 p := by
  obtain ⟨p, reach, log, writes, returns⟩ := Pool.exec_reaches (ops 7) (fewPerCall ⟨none, none⟩)
    (Pool.fresh (memRingInit default (word (2 ^ 1)) 0 0 0 7)) metSchedule
    (fun p => p.log = [.reserved 6, .reserved 5, .claimed 1, .delivered 6] ∧
      writing (p.thread 0) = some (5, 1) ∧ returning (p.thread 1) = some (1, [6]))
    (by decide +kernel)
  exact ⟨p, reach, log, writes, returns,
    nshmem_orderly ⟨none, none⟩ default 1 (by decide) 0 0 0 7 p reach⟩

/-! ## A bound on the reservations alone is not enough -/

/-- Calls of the flavour; fewer than 2³² reservations while one call is in flight. -/
def fewEnqueues [DecidableEq ι] (fl : Flavour ι) (p : Pool ι Pc MemRing Event)
    (a : Action ι Call) : Bool :=
  fl.admits p a && fewMoves .prod p a

/-- A ring of one slot that nobody is inside of. Thread 0 is about to claim position 0; since
it has started, every slot but the first was reserved. -/
structure Overtaken (t f : Nat) (p : Pool (Fin 2) Pc MemRing Event) : Prop where
  sleeper : p.thread 0 = some (.inr (.inl (.cas 1 0 1)))
  idle : p.thread 1 = none
  rests : ∃ item, Rests 0 t f item p.shared
  settled : ∀ side, Settled 7 p.shared side
  reserved : (reservedOf p.log).length = f
  delivered : (deliveredOf p.log).length = t
  few : movesOf .prod (p.inFlight 0) + 1 = f
  started : p.birth 0 ≤ p.log.length

theorem short_call_allowed {fl : Flavour (Fin 2)} {events : List Event}
    (short : movesOf .prod events < 2 ^ 32) (q : Pool (Fin 2) Pc MemRing Event)
    (committed : List Event) (begins : committed <+: events) (seen : q.inFlight 1 = committed) :
    fewEnqueues fl q (.access 1) = true := by
  obtain ⟨rest, rfl⟩ := begins
  rw [movesOf_append] at short
  simp only [fewEnqueues, fewMoves, seen, Flavour.admits, Bool.true_and, decide_eq_true_eq]
  omega

section Overtaking

variable {p₀ p : Pool (Fin 2) Pc MemRing Event} {t f : Nat}

/-- Thread 0 sleeps through a complete call of thread 1. -/
theorem Overtaken.sleeps {t' f' : Nat} {r : MemRing} {events : List Event}
    (late : Overtaken t f p) (taken : t' = t + (deliveredOf events).length)
    (made : f' = f + (reservedOf events).length) (rests : ∃ item, Rests 0 t' f' item r)
    (settled : ∀ side, Settled 7 r side) : Overtaken t' f' (p.afterCall 1 r events) := by
  have other : (0 : Fin 2) ≠ 1 := by decide
  have started := late.started
  constructor
  · exact late.sleeper
  · exact late.idle
  · exact rests
  · exact settled
  · change (reservedOf (p.log ++ events)).length = _
    rw [reservedOf_append, List.length_append, late.reserved, made]
  · change (deliveredOf (p.log ++ events)).length = _
    rw [deliveredOf_append, List.length_append, late.delivered, taken]
  · have few := late.few
    rw [Pool.inFlight_afterCall other started, movesOf_append]
    change _ + (reservedOf events).length + 1 = _
    omega
  · change Function.update p.birth 1 p.log.length 0 ≤ (p.log ++ events).length
    rw [Function.update_of_ne other, List.length_append]
    omega

/-- Thread 1 dequeues the only element. -/
theorem Overtaken.drains (late : Overtaken t (t + 1) p)
    (reach : Reach (ops 7) (fun p a => fewEnqueues ⟨none, none⟩ p a) p₀ p) :
    ∃ p', Reach (ops 7) (fun p a => fewEnqueues ⟨none, none⟩ p a) p₀ p' ∧
      Overtaken (t + 1) (t + 1) p' := by
  obtain ⟨item, rests⟩ := late.rests
  have settled := late.settled .cons
  have own : recovered 7 p.shared .cons = p.shared := if_pos settled.hflag_eq
  have stored : (1 : UInt32).toNat = min (1 : UInt32).toNat (t + 1 - t) := by
    rw [UInt32.toNat_one]
    omega
  have trace := mc_takes rests (by decide) settled.owned (by decide) (by decide) stored
  have events : takeEvents ((queue t (t + 1) item).take (1 : UInt32).toNat) 1 =
      [.claimed 1, .delivered (item t)] := by
    simp [queue, takeEvents]
  rw [own, events] at trace
  have trace : Trace (ops 7) ((ops 7).start (.inr (.inl 1))) p.shared _ _ _ :=
    (trace.embed (Code.embeds_inl _ (scDequeue 7))).embed (Code.embeds_inr _ _)
  refine ⟨_, reach.call late.idle trace rfl (short_call_allowed ?_), late.sleeps rfl rfl ?_ ?_⟩
  · exact Nat.two_pow_pos 32
  · have emptied : Rests 0 (t + (1 : UInt32).toNat) (t + 1) item (take p.shared 1) :=
      rests.take (by omega)
    exact ⟨item, emptied⟩
  · intro side
    cases side with
    | prod => exact (late.settled .prod).untouched ⟨rfl, rfl, rfl, rfl⟩
    | cons => exact settled.take 1

theorem Overtaken.refills (late : Overtaken t t p)
    (reach : Reach (ops 7) (fun p a => fewEnqueues ⟨none, none⟩ p a) p₀ p) :
    ∃ p', Reach (ops 7) (fun p a => fewEnqueues ⟨none, none⟩ p a) p₀ p' ∧
      Overtaken t (t + 1) p' := by
  obtain ⟨item, rests⟩ := late.rests
  have settled := late.settled .prod
  have own : recovered 7 p.shared .prod = p.shared := if_pos settled.hflag_eq
  have trace := mp_accepts rests (by decide) settled.owned settled.head_eq (by omega) 0
  rw [own] at trace
  have trace : Trace (ops 7) ((ops 7).start (.inl (.inl 0))) p.shared _ _ _ :=
    (trace.embed (Code.embeds_inl _ (spEnqueue 7))).embed (Code.embeds_inl _ _)
  refine ⟨_, reach.call late.idle trace rfl (short_call_allowed (by decide)),
    late.sleeps rfl rfl ?_ ?_⟩
  · exact ⟨_, rests.put (by decide) (by omega) 0⟩
  · intro side
    cases side with
    | prod => exact settled.put 0
    | cons => exact (late.settled .cons).untouched ⟨rfl, rfl, rfl, rfl⟩

theorem Overtaken.overtakes (late : Overtaken 0 1 p)
    (reach : Reach (ops 7) (fun p a => fewEnqueues ⟨none, none⟩ p a) p₀ p) (n : Nat) :
    ∃ p', Reach (ops 7) (fun p a => fewEnqueues ⟨none, none⟩ p a) p₀ p' ∧
      Overtaken (n + 1) (n + 1) p' := by
  induction n with
  | zero => exact late.drains reach
  | succ n ih =>
    obtain ⟨p₁, reach₁, late₁⟩ := ih
    obtain ⟨p₂, reach₂, late₂⟩ := late₁.refills reach₁
    exact late₂.drains reach₂

/-- Once the index has gone all the way round, thread 0 wins its compare-and-swap and delivers
what is in the slot. -/
theorem Overtaken.wakes (late : Overtaken t t p) (round : word t = 0) (once : t ≤ 2 ^ 32)
    (reach : Reach (ops 7) (fun p a => fewEnqueues ⟨none, none⟩ p a) p₀ p) :
    ∃ p', Reach (ops 7) (fun p a => fewEnqueues ⟨none, none⟩ p a) p₀ p' ∧
      (deliveredOf p'.log).length = t + 1 ∧ (reservedOf p'.log).length = t := by
  obtain ⟨item, rests⟩ := late.rests
  have few : movesOf .prod (p.log.drop (p.birth 0)) + 1 = t := late.few
  have head : p.shared.consHead = 0 :=
    (late.settled .cons).head_eq.trans (rests.consTail_eq.trans round)
  have copied : objCopy p.shared 0 1 = [0] :=
    objCopy_eq rests.size_eq rests.mask_eq (by decide) 0 (by decide)
  have claims : p.act (ops 7) (.access 0) = some ⟨{ p.shared with consHead := 0 + 1 },
      Function.update p.thread 0 (some (.inr (.inl (.copy 0 1 [0] [])))), p.log ++ [.claimed 1],
      p.birth⟩ := by
    simp [Pool.act, late.sleeper, ops, Code.sum, mcDequeue, mcStep, head, copied]
  have awake : fewEnqueues ⟨none, none⟩ p (.access 0) = true := by
    simp only [fewEnqueues, Flavour.admits, fewMoves, Bool.true_and, decide_eq_true_eq]
    change movesOf .prod (p.log.drop (p.birth 0)) < _
    omega
  refine ⟨_, (reach.step awake claims).step (a := .access 0) ?_ rfl, ?_, ?_⟩
  · have none : movesOf .prod [Event.claimed 1] = 0 := rfl
    simp only [fewEnqueues, Flavour.admits, fewMoves, Bool.true_and, decide_eq_true_eq,
      Pool.inFlight, List.drop_append_of_le_length late.started, movesOf_append, none]
    omega
  · change (deliveredOf ((p.log ++ [Event.claimed 1]) ++ [.delivered _])).length = _
    rw [deliveredOf_append, deliveredOf_append, List.length_append, List.length_append,
      late.delivered]
    rfl
  · change (reservedOf ((p.log ++ [Event.claimed 1]) ++ [.delivered _])).length = _
    rw [reservedOf_append, reservedOf_append, List.length_append, List.length_append,
      late.reserved]
    rfl

end Overtaking

/-- Thread 1 enqueues; thread 0 starts a dequeue and pauses before its compare-and-swap. -/
def sleepSchedule : List (Action (Fin 2) Call) :=
  .call 1 (.inl (.inl 0)) :: List.replicate 11 (.access 1) ++
    .call 0 (.inr (.inl 1)) :: List.replicate 8 (.access 0)

/-- Thread 0 sleeps before its compare-and-swap. -/
theorem sleeper_reached :
    ∃ p, Reach (ops 7) (fun p a => fewEnqueues ⟨none, none⟩ p a)
        (Pool.fresh (memRingInit default (word (2 ^ 0)) 0 0 0 7)) p ∧ Overtaken 0 1 p := by
  obtain ⟨p, reach, sleeper, idle, log, birth, size, mask, indices, flags⟩ :=
    Pool.exec_reaches (ops 7) (fewEnqueues ⟨none, none⟩)
      (Pool.fresh (memRingInit default (word (2 ^ 0)) 0 0 0 7)) sleepSchedule
      (fun p => p.thread 0 = some (.inr (.inl (.cas 1 0 1))) ∧ p.thread 1 = none ∧
        p.log = [.reserved 0] ∧ p.birth 0 = 1 ∧ p.shared.size = 1 ∧ p.shared.mask = 0 ∧
        (p.shared.prodHead = 1 ∧ p.shared.prodTail = 1 ∧ p.shared.consHead = 0 ∧
          p.shared.consTail = 0) ∧
        (p.shared.prodhflag = 7 ∧ p.shared.prodtflag = 7 ∧ p.shared.conshflag = 7 ∧
          p.shared.constflag = 7))
      (by decide +kernel)
  refine ⟨p, reach, sleeper, idle, ?_, ?_, ?_, ?_, ?_, ?_⟩
  · refine ⟨fun q => (p.shared.ring (q % 2 ^ 0)).dataL, size, mask, indices.2.1, indices.2.2.2,
      by decide, by decide, fun _ _ _ => rfl⟩
  · intro side
    cases side with
    | prod => exact ⟨flags.1, flags.2.1, indices.1.trans indices.2.1.symm⟩
    | cons => exact ⟨flags.2.2.1, flags.2.2.2, indices.2.2.1.trans indices.2.2.2.symm⟩
  · rw [log]
    rfl
  · rw [log]
    rfl
  · rw [Pool.inFlight, log, birth]
    rfl
  · rw [log, birth]
    decide

/-- A consumer of a ring of one slot sleeps before its compare-and-swap while 2³² elements,
the first of them there when it started, are dequeued: it then delivers one more element than
there were reservations. -/
theorem sleeper_redelivers :
    ∃ p, Reach (ops 7) (fun p a => fewEnqueues ⟨none, none⟩ p a)
        (Pool.fresh (memRingInit default 1 0 0 0 7)) p ∧
      ¬ deliveredOf p.log <+: reservedOf (p : Pool (Fin 2) Pc MemRing Event).log := by
  obtain ⟨p₀, reach₀, late₀⟩ := sleeper_reached
  obtain ⟨p, reach, late⟩ := late₀.overtakes reach₀ (2 ^ 32 - 1)
  obtain ⟨p', reach', delivered, reserved⟩ := late.wakes (by decide) (by decide) reach
  refine ⟨p', reach', fun ordered => ?_⟩
  have := ordered.length_le
  omega

end Dmm.Ring.Nshmem
