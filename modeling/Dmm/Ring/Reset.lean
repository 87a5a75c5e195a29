import Dmm.Ring.Shmem
import Dmm.Ring.NshmemSequential
import Dmm.Ring.SingleThread

/-!
# Resetting a ring

`nsfw_mem_ring_reset` of `nsfw_mem_api.c` clears `prod.head`, `cons.tail` and the slots, and leaves
`prod.tail` and `cons.head` as they are. The shared-memory rings and the single-thread rings never
read these two, so for them a reset ring is a new one. The process-local rings do: theirs is a new
one exactly when both were zero. The calls and the reset are those of the process that built the
ring, each run to its end.
-/

namespace Dmm.Ring.Reset

open Dmm.Machine Dmm.Word

/-- `nsfw_mem_ring_reset` -/
def memRingReset (r : MemRing) (entype : UInt8) : MemRing :=
  { r with
    prodHead := 0
    consTail := 0
    ringflag := entype
    ring := initSlots r.size r.ring r.size.toNat }

/-- The ring `nsfw_mem_ring_init` builds in the same memory with the same size. -/
def rebuilt (r : MemRing) (entype : UInt8) (pid : UInt32) : MemRing :=
  memRingInit r r.size r.addrbase r.memtype entype pid

/-! ## Sessions -/

section Sessions

variable {κ ρ : Type}

/-- Complete calls one after another with what they return. -/
inductive Sess (calls : κ → MemRing → ρ → MemRing → Prop) : MemRing → List (κ × ρ) → MemRing → Prop
  | nil {r} : Sess calls r [] r
  | cons {r c res r' rest r''} : calls c r res r' → Sess calls r' rest r'' →
      Sess calls r ((c, res) :: rest) r''

variable {calls : κ → MemRing → ρ → MemRing → Prop} {r r' : MemRing} {run : List (κ × ρ)}

/-- The ring answers a sequence of calls with these results. -/
def Answers (calls : κ → MemRing → ρ → MemRing → Prop) (r : MemRing) (run : List (κ × ρ)) : Prop :=
  ∃ r', Sess calls r run r'

/-- Every call terminates, after any sequence of calls. -/
def Terminates (calls : κ → MemRing → ρ → MemRing → Prop) (r : MemRing) : Prop :=
  ∀ run, Answers calls r run → ∀ c, ∃ res, Answers calls r (run ++ [(c, res)])

theorem Sess.invariant {P : MemRing → Prop} (session : Sess calls r run r')
    (keeps : ∀ c r res r', calls c r res r' → P r → P r') (holds : P r) : P r' := by
  induction session with
  | nil => exact holds
  | cons call _ ih => exact ih (keeps _ _ _ _ call holds)

/-- The ring without the two indices a reset leaves alone. -/
def clear (r : MemRing) : MemRing := { r with prodTail := 0, consHead := 0 }

/-- The calls neither read nor write these indices. -/
structure Blind (calls : κ → MemRing → ρ → MemRing → Prop) : Prop where
  lose : ∀ {c r res r'}, calls c r res r' → calls c (clear r) res (clear r')
  lift : ∀ {c r res t}, calls c (clear r) res t → ∃ r', calls c r res r' ∧ t = clear r'

/-- Blind calls answer alike with and without the indices. -/
theorem Blind.answers_clear (blind : Blind calls) (r : MemRing) (run : List (κ × ρ)) :
    Answers calls (clear r) run ↔ Answers calls r run := by
  constructor
  · rintro ⟨t, session⟩
    generalize from_eq : clear r = s at session
    induction session generalizing r with
    | nil => exact ⟨r, .nil⟩
    | cons call _ ih =>
      subst from_eq
      obtain ⟨r', call', rfl⟩ := blind.lift call
      obtain ⟨r'', rest⟩ := ih r' rfl
      exact ⟨r'', .cons call' rest⟩
  · rintro ⟨r', session⟩
    induction session with
    | nil => exact ⟨_, .nil⟩
    | cons call _ ih =>
      obtain ⟨t, rest⟩ := ih
      exact ⟨t, .cons (blind.lose call) rest⟩

end Sessions

section Codes

variable {κ τ ρ ε : Type} {code : Code κ τ MemRing ρ ε}

theorem calls_keep {P : MemRing → Prop} (keeps : ∀ l r, P r → P (code.step l r).2) {c : κ}
    {r r' : MemRing} {res : ρ} (call : code.Calls c r res r') (holds : P r) : P r' := by
  unfold Code.Calls at call
  generalize code.start c = l at call
  induction call with
  | @done l s res s' stop =>
    have kept := keeps l s holds
    rwa [stop] at kept
  | @next l s res s'' l' s' go _ ih =>
    have kept := keeps l s holds
    rw [go] at kept
    exact ih kept

/-- The configuration after some accesses, or the result reached before. -/
def after (code : Code κ τ MemRing ρ ε) : Nat → τ → MemRing → (τ ⊕ ρ) × MemRing
  | 0, l, r => (.inl l, r)
  | n + 1, l, r =>
    match code.step l r with
    | (.inl l', r') => after code n l' r'
    | (.inr res, r') => (.inr res, r')

end Codes

/-! ## The flavours -/

/-- Whether several threads work on a side of a ring, or one. -/
inductive Threads
  | multi
  | single

/-- `NSFW_MRING_*` of both memory types: `MPMC`, `MPSC`, `SPMC` and `SPSC` by their sides, and
`SPSC_ST`. -/
inductive Kind
  | shmem (prod cons : Threads)
  | shmemSt
  | nshmem (prod cons : Threads)
  | nshmemSt

/-- The calls on a ring: an enqueue with its element, or a dequeue. -/
def Kind.Call : Kind → Type
  | .shmem _ _ => Nat ⊕ Shmem.Batch
  | .shmemSt => SingleThread.Call (BitVec 40)
  | .nshmem _ _ => Nshmem.Obj ⊕ UInt32
  | .nshmemSt => SingleThread.Call (BitVec 64)

/-- What the elements of a ring are. -/
def Kind.Elem : Kind → Type
  | .shmem _ _ => Nat
  | .shmemSt => BitVec 40
  | .nshmem _ _ => Nshmem.Obj
  | .nshmemSt => BitVec 64

/-- The operation of a process-local ring that a call runs. -/
def pick (prod cons : Threads) : Nshmem.Obj ⊕ UInt32 → Nshmem.Call
  | .inl obj => .inl (match prod with | .multi => .inl obj | .single => .inr obj)
  | .inr n => .inr (match cons with | .multi => .inl n | .single => .inr n)

/-- The complete calls on a shared-memory ring. -/
def shmemCalls (prod cons : Threads) :
    Nat ⊕ Shmem.Batch → MemRing → Shmem.Result → MemRing → Prop
  | .inl box =>
    match prod with
    | .multi => Shmem.mpEnqueue.Calls box
    | .single => Shmem.spEnqueue.Calls box
  | .inr b =>
    match cons with
    | .multi => Shmem.mcDequeue.Calls b
    | .single => Shmem.scDequeue.Calls b

/-- The complete calls on a process-local ring. -/
def nshmemCalls (pid : UInt32) (prod cons : Threads) (c : Nshmem.Obj ⊕ UInt32) :
    MemRing → Nshmem.Result → MemRing → Prop :=
  (Nshmem.ops pid).Calls (pick prod cons c)

/-- The complete calls on a ring by the process `pid`. -/
def Kind.calls (pid : UInt32) : (kind : Kind) →
    kind.Call → MemRing → Fifo.Reply kind.Elem → MemRing → Prop
  | .shmem prod cons => shmemCalls prod cons
  | .shmemSt => fun c r res r' => SingleThread.shmemCall c r = (res, r')
  | .nshmem prod cons => nshmemCalls pid prod cons
  | .nshmemSt => fun c r res r' => SingleThread.nshmemCall c r = (res, r')

/-- A ring between calls: built by `nsfw_mem_ring_init` with a power of two of slots, and used. -/
def Reached (pid : UInt32) (kind : Kind) (r : MemRing) : Prop :=
  ∃ (k : Nat) (memory : MemRing) (addrbase : Nat) (memtype flag : UInt8)
    (run : List (kind.Call × Fifo.Reply kind.Elem)), k < 32 ∧
    Sess (kind.calls pid) (memRingInit memory (word (2 ^ k)) addrbase memtype flag pid) run r

/-- What no operation of the process changes. -/
structure Quiescent (pid : UInt32) (r : MemRing) : Prop where
  size : ∃ k < 32, r.size = word (2 ^ k)
  mask : r.mask = r.size - 1
  eltsize : r.eltsize = 0
  prodhflag : r.prodhflag = pid
  prodtflag : r.prodtflag = pid
  conshflag : r.conshflag = pid
  constflag : r.constflag = pid

variable {pid : UInt32} {r : MemRing} {entype : UInt8} {prod cons : Threads}

theorem Quiescent.of_eq {r' : MemRing} (quiet : Quiescent pid r)
    (same : (r'.size, r'.mask, r'.eltsize, r'.prodhflag, r'.prodtflag, r'.conshflag, r'.constflag) =
      (r.size, r.mask, r.eltsize, r.prodhflag, r.prodtflag, r.conshflag, r.constflag)) :
    Quiescent pid r' := by
  simp only [Prod.mk.injEq] at same
  obtain ⟨size, mask, elt, ph, pt, ch, ct⟩ := same
  exact ⟨size ▸ quiet.size, by rw [mask, size, quiet.mask], elt ▸ quiet.eltsize,
    ph ▸ quiet.prodhflag, pt ▸ quiet.prodtflag, ch ▸ quiet.conshflag, ct ▸ quiet.constflag⟩

/-! ## The rings that do not read the indices -/

/-- What a slot holds, and held before, does not depend on the indices. -/
@[simp] theorem clear_slot (r : MemRing) (pos : UInt32) : (clear r).slot pos = r.slot pos ∧
    Shmem.expectPostVal (clear r) pos = Shmem.expectPostVal r pos :=
  ⟨rfl, rfl⟩

@[simp] theorem clear_outOfRange (r : MemRing) (box : Nat) :
    Shmem.outOfRange (clear r) box = Shmem.outOfRange r box :=
  rfl

@[simp] theorem clear_boxOf (r : MemRing) (d : RingData) :
    Shmem.boxOf (clear r) d = Shmem.boxOf r d :=
  rfl

@[simp] theorem clear_fields (r : MemRing) : (clear r).size = r.size ∧ (clear r).mask = r.mask ∧
    (clear r).prodHead = r.prodHead ∧ (clear r).consTail = r.consTail :=
  ⟨rfl, rfl, rfl, rfl⟩

@[simp] theorem clear_cas (r : MemRing) (old new : UInt32) :
    (clear r).casConsTail old new = clear (r.casConsTail old new) ∧
      (clear r).casProdHead old new = clear (r.casProdHead old new) := by
  constructor
  · by_cases same : r.consTail = old <;> simp [MemRing.casConsTail, same, clear]
  · by_cases same : r.prodHead = old <;> simp [MemRing.casProdHead, same, clear]

section SingleThread

variable {α : Type}

/-- The dequeue loop of a single-thread ring neither reads nor writes the indices. -/
theorem dequeueLoop_clear (cells : SingleThread.Cells α) (n : Nat) (r : MemRing) :
    SingleThread.dequeueLoop cells n (clear r) =
      ((SingleThread.dequeueLoop cells n r).1, clear (SingleThread.dequeueLoop cells n r).2) := by
  induction n generalizing r with
  | zero => rfl
  | succ n ih =>
    by_cases empty : r.prodHead = r.consTail
    · simp [SingleThread.dequeueLoop, clear, empty]
    · have step : SingleThread.advanceTail cells (clear r) =
          clear (SingleThread.advanceTail cells r) := rfl
      have held : (clear r).prodHead ≠ (clear r).consTail := empty
      simp only [SingleThread.dequeueLoop, if_neg empty, if_neg held, step, ih]
      rfl

/-- A call of a single-thread ring: it enqueues an element, or takes some out. -/
def OneCall (cells : SingleThread.Cells α) (call : MemRing → Fifo.Reply α × MemRing) : Prop :=
  (∃ x, call = SingleThread.enqueue cells x) ∨ ∃ n, call = SingleThread.dequeuev cells n

theorem OneCall.clear {cells : SingleThread.Cells α} {call : MemRing → Fifo.Reply α × MemRing}
    (one : OneCall cells call) (r : MemRing) :
    call (clear r) = ((call r).1, Reset.clear (call r).2) := by
  obtain ⟨x, rfl⟩ | ⟨n, rfl⟩ := one
  · simp only [SingleThread.enqueue, clear_fields]
    split <;> rfl
  · simp [SingleThread.dequeuev, dequeueLoop_clear]

end SingleThread

theorem shmemCall_oneCall (c : SingleThread.Call (BitVec 40)) :
    OneCall SingleThread.shmemCells (SingleThread.shmemCall c) := by
  cases c with
  | enqueue x => exact .inl ⟨x, rfl⟩
  | dequeue => exact .inr ⟨1, funext SingleThread.shmemDequeue_eq⟩
  | dequeuev n => exact .inr ⟨n, rfl⟩

theorem nshmemCall_oneCall (c : SingleThread.Call (BitVec 64)) :
    OneCall SingleThread.nshmemCells (SingleThread.nshmemCall c) := by
  cases c with
  | enqueue x => exact .inl ⟨x, rfl⟩
  | dequeue => exact .inr ⟨1, rfl⟩
  | dequeuev n => exact .inr ⟨n, rfl⟩

/-! ## What no operation changes -/

theorem Quiescent.mpStep (quiet : Quiescent pid r) (l : Shmem.MpPc) :
    Quiescent pid (Shmem.mpStep l r).2 := by
  refine quiet.of_eq ?_
  cases l <;> simp only [Shmem.mpStep, MemRing.casConsTail, MemRing.casProdHead] <;>
    (try split_ifs) <;> rfl

theorem Quiescent.spStep (quiet : Quiescent pid r) (l : Shmem.SpPc) :
    Quiescent pid (Shmem.spStep l r).2 := by
  refine quiet.of_eq ?_
  cases l <;> simp only [Shmem.spStep, MemRing.casConsTail] <;> (try split_ifs) <;> rfl

theorem Quiescent.mcStep (quiet : Quiescent pid r) (l : Shmem.McPc) :
    Quiescent pid (Shmem.mcStep l r).2 := by
  refine quiet.of_eq ?_
  cases l <;> simp only [Shmem.mcStep, MemRing.casConsTail, MemRing.casProdHead] <;>
    (try split_ifs) <;> rfl

theorem Quiescent.scStep (quiet : Quiescent pid r) (l : Shmem.ScPc) :
    Quiescent pid (Shmem.scStep l r).2 := by
  refine quiet.of_eq ?_
  cases l <;> simp only [Shmem.scStep, MemRing.casProdHead] <;> (try split_ifs) <;> rfl

/-- An access of the fork recovery by the process itself keeps it. -/
theorem Quiescent.recov (quiet : Quiescent pid r) (side : Nshmem.Side) (pc : Nshmem.RecovPc) :
    Quiescent pid (Nshmem.recovStep side pid pc r).2 := by
  obtain ⟨size, mask, elt, ph, pt, ch, ct⟩ := quiet
  cases pc <;> cases side <;> simp only [Nshmem.recovStep] <;> (try split_ifs) <;>
    exact ⟨size, mask, elt, by first | rfl | exact ph, by first | rfl | exact pt,
      by first | rfl | exact ch, by first | rfl | exact ct⟩

/-- An access of a process-local operation keeps it. -/
theorem Quiescent.nshmem (quiet : Quiescent pid r)
    (l : (Nshmem.MpPc ⊕ Nshmem.SpPc) ⊕ (Nshmem.McPc ⊕ Nshmem.ScPc)) :
    Quiescent pid ((Nshmem.ops pid).step l r).2 := by
  have recov := quiet.recov
  rcases l with (l | l) | (l | l)
  · change Quiescent pid (Nshmem.mpStep pid l r).2
    cases l with
    | recov obj head pc => specialize recov .prod pc; grind [Nshmem.mpStep]
    | wait => simp only [Nshmem.mpStep]; split <;> exact quiet
    | _ =>
      simp only [Nshmem.mpStep]
      (try split_ifs) <;> exact quiet.of_eq rfl
  · change Quiescent pid (Nshmem.spStep pid l r).2
    cases l with
    | recov obj head pc => specialize recov .prod pc; grind [Nshmem.spStep]
    | _ =>
      simp only [Nshmem.spStep]
      (try split_ifs) <;> exact quiet.of_eq rfl
  · change Quiescent pid (Nshmem.mcStep pid l r).2
    cases l with
    | recov n pc => specialize recov .cons pc; grind [Nshmem.mcStep]
    | wait => simp only [Nshmem.mcStep]; split <;> exact quiet
    | copy head num todo out => cases todo <;> exact quiet
    | _ =>
      simp only [Nshmem.mcStep]
      (try split_ifs) <;> exact quiet.of_eq rfl
  · change Quiescent pid (Nshmem.scStep pid l r).2
    cases l with
    | recov head num pc => specialize recov .cons pc; grind [Nshmem.scStep]
    | copy head num todo out => cases todo <;> exact quiet
    | _ =>
      simp only [Nshmem.scStep]
      (try split_ifs) <;> exact quiet.of_eq rfl

theorem Quiescent.oneCall {α : Type} {cells : SingleThread.Cells α}
    {call : MemRing → Fifo.Reply α × MemRing} (quiet : Quiescent pid r) (one : OneCall cells call) :
    Quiescent pid (call r).2 := by
  obtain ⟨x, rfl⟩ | ⟨n, rfl⟩ := one
  · unfold SingleThread.enqueue
    split <;> exact quiet.of_eq rfl
  · change Quiescent pid (SingleThread.dequeueLoop cells n.toNat r).2
    induction n.toNat generalizing r with
    | zero => exact quiet
    | succ n ih =>
      unfold SingleThread.dequeueLoop
      split
      · exact quiet
      · exact ih (quiet.of_eq rfl)

theorem Quiescent.call (kind : Kind) {c : kind.Call} {res : Fifo.Reply kind.Elem} {r' : MemRing}
    (call : kind.calls pid c r res r') (quiet : Quiescent pid r) : Quiescent pid r' := by
  match kind, c, res, call with
  | .shmem .multi _, .inl _, _, call => exact calls_keep (fun l _ kept => kept.mpStep l) call quiet
  | .shmem .single _, .inl _, _, call => exact calls_keep (fun l _ kept => kept.spStep l) call quiet
  | .shmem _ .multi, .inr _, _, call => exact calls_keep (fun l _ kept => kept.mcStep l) call quiet
  | .shmem _ .single, .inr _, _, call => exact calls_keep (fun l _ kept => kept.scStep l) call quiet
  | .nshmem _ _, _, _, call => exact calls_keep (fun l _ kept => kept.nshmem l) call quiet
  | .shmemSt, c, _, call =>
    obtain rfl : _ = r' := congrArg Prod.snd call
    exact quiet.oneCall (shmemCall_oneCall c)
  | .nshmemSt, c, _, call =>
    obtain rfl : _ = r' := congrArg Prod.snd call
    exact quiet.oneCall (nshmemCall_oneCall c)

/-- A reset leaves a ring just built, apart from the two indices. -/
theorem Quiescent.reset_eq (quiet : Quiescent pid r) (entype : UInt8) :
    memRingReset r entype =
      { rebuilt r entype pid with prodTail := r.prodTail, consHead := r.consHead } := by
  obtain ⟨-, mask, elt, ph, pt, ch, ct⟩ := quiet
  cases r
  simp_all [memRingReset, rebuilt, memRingInit]

/-! ## The process-local rings -/

section Nshmem

variable {k : Nat} {q : List Nshmem.Obj}

theorem Quiescent.reset (quiet : Quiescent pid r) (entype : UInt8) :
    Quiescent pid (memRingReset r entype) :=
  quiet.of_eq rfl

end Nshmem

/-! ## All rings -/

/-- When a reset ring is one just built: a process-local ring when the indices the reset leaves
alone were zero, a shared-memory ring when the calls on one just built terminate, and a
single-thread ring always. -/
def Meets (pid : UInt32) (r : MemRing) (entype : UInt8) : Kind → Prop
  | .nshmem _ _ => r.prodTail = 0 ∧ r.consHead = 0
  | .shmem prod cons => Terminates (shmemCalls prod cons) (rebuilt r entype pid)
  | .shmemSt | .nshmemSt => True

/-- On a ring whose calls are blind to the indices, a reset answers as one just built. -/
theorem Blind.same {κ ρ : Type} {calls : κ → MemRing → ρ → MemRing → Prop} (blind : Blind calls)
    (quiet : Quiescent pid r) (run : List (κ × ρ)) :
    Answers calls (memRingReset r entype) run ↔ Answers calls (rebuilt r entype pid) run := by
  rw [← blind.answers_clear, ← blind.answers_clear (rebuilt r entype pid), quiet.reset_eq]
  rfl

end Dmm.Ring.Reset
