import Dmm.Lib.Linked
import Dmm.Lib.Run
import Dmm.Select.Fdset

/-!
# The linked select entries

`nstack_select` allocates an entry, links it into the global list (`select_add_cb`), waits, takes it
out again (`select_rm_cb`) and frees it. The list is changed and read under one spin lock, so the
two operations are steps of their own; the other steps of a call run from one of them to the next.
A null pointer that is followed is recorded.

The list is linked both ways and ends in null pointers. Read as a ring through the null pointer,
whose links are `entry_head` and `entry_tail`, it is a path of `Dmm.Lib.Linked`.
-/

namespace Dmm.Select.Entries

open Dmm.Linked

/-! ## Arguments -/

/-- `NSTACK_MAX_U64_NUM` -/
def maxU64Num : Nat := 2 ^ 64 - 1

/-- `struct timeval` -/
structure Timeval where
  sec : Int
  usec : Int
  sec_lt : sec < 2 ^ 63
  usec_lt : usec < 2 ^ 63

/-- The arguments of `nstack_select`: of the sets only whether they are null matters here. -/
structure Args where
  nfds : Int
  readfds : Bool
  writefds : Bool
  exceptfds : Bool
  timeout : Option Timeval

/-- `nstack_timeval2msec` -/
def timeval2msec (time : Timeval) : Option Nat :=
  if time.sec < 0 ∨ time.usec < 0 then none
  else if maxU64Num / 1000 < time.sec.toNat then none
  else
    let sec2msec := 1000 * time.sec.toNat % 2 ^ 64
    let usec2msec := time.usec.toNat / 1000
    if maxU64Num - sec2msec < usec2msec then none else some (sec2msec + usec2msec)

/-- The first check of `nstack_select`. -/
def Args.Invalid (args : Args) : Prop :=
  args.nfds > fdSetsize ∨ args.nfds < 0 ∨ ∃ time ∈ args.timeout, time.sec < 0 ∨ time.usec < 0

instance (args : Args) : Decidable args.Invalid :=
  inferInstanceAs (Decidable (_ ∨ _ ∨ ∃ time ∈ args.timeout, time.sec < 0 ∨ time.usec < 0))

/-! ## Calls -/

/-- Where a call stands that has allocated its entry. -/
inductive Stage
  | split
  | add
  | added
  /-- Before `select_sem_wait` or `nstack_sem_timedwait`, or in it. -/
  | waiting
  | leaving
  deriving DecidableEq, Repr

variable {T A : Type*}

/-- A call with its entry. -/
structure Call (A : Type*) where
  args : Args
  entry : A
  stage : Stage

/-- `g_select_module`, the entries and the calls of the threads. -/
structure State (T A : Type*) where
  head : Option A
  tail : Option A
  next : A → Option A
  prev : A → Option A
  allocated : A → Bool
  calls : T → Option (Call A)
  crashed : Bool

/-- Before the first call. -/
def start (T A : Type*) : State T A where
  head := none
  tail := none
  next _ := none
  prev _ := none
  allocated _ := false
  calls _ := none
  crashed := false

/-- `g_nStackInfo.fwInited` as `NSTACK_INIT_CHECK_RET` finds it. -/
inductive Fw
  | initing
  | failed
  | ready
  deriving DecidableEq, Repr

/-- What a call finds on its way to its entry. -/
structure Found (A : Type*) where
  fw : Fw
  logged : Bool
  inited : Bool
  alloc : Option A

section steps

variable [DecidableEq T] [DecidableEq A]

/-- `nstack_select` until its entry is allocated, or until it returns. -/
def enter (s : State T A) (t : T) (args : Args) (found : Found A) : State T A :=
  match found.fw with
  | .initing => s
  | .failed => s
  | .ready =>
    if args.Invalid then
      -- The text that is logged holds the fields of the timeout.
      if found.logged ∧ args.timeout.isNone then { s with crashed := true } else s
    else if found.inited = false then s
    else if args.nfds ≤ 0 ∨ ¬ args.readfds ∧ ¬ args.writefds ∧ ¬ args.exceptfds then s
    else
      match found.alloc with
      | none => s
      | some a =>
        { s with
          next := Function.update s.next a none
          prev := Function.update s.prev a none
          allocated := Function.update s.allocated a true
          calls := Function.update s.calls t (some ⟨args, a, .split⟩) }

/-- The stage after the split and the scan: only the default module is asked, the scan fails or
finds something, or there is no time to wait. -/
def scanned (args : Args) (onlyDefault : Bool) (scan readyset : Int) : Stage :=
  if onlyDefault then .leaving
  else if scan = 0 then .leaving
  else if readyset ≠ 0 then .leaving
  else if ∃ time ∈ args.timeout, time.sec = 0 ∧ time.usec = 0 then .leaving
  else .add

/-- `select_add_cb` -/
def addCb (s : State T A) (entry : A) : State T A :=
  match s.head with
  | none =>
    { s with
      head := some entry
      tail := some entry
      next := Function.update s.next entry none
      prev := Function.update s.prev entry none }
  | some _ =>
    match s.tail with
    | none => { s with crashed := true }
    | some last =>
      { s with
        next := Function.update (Function.update s.next last (some entry)) entry none
        prev := Function.update s.prev entry (some last)
        tail := some entry }

/-- The first half of `select_rm_cb`. -/
def rmForward (s : State T A) (entry : A) : State T A :=
  if s.head = some entry then { s with head := s.next entry }
  else
    match s.prev entry with
    | some before => { s with next := Function.update s.next before (s.next entry) }
    | none => s

/-- The second half of `select_rm_cb`. -/
def rmBackward (s : State T A) (entry : A) : State T A :=
  if s.tail = some entry then { s with tail := s.prev entry }
  else
    match s.next entry with
    | some after => { s with prev := Function.update s.prev after (s.prev entry) }
    | none => s

/-- `select_rm_cb` -/
def rmCb (s : State T A) (entry : A) : State T A :=
  let s := rmBackward (rmForward s entry) entry
  { s with
    next := Function.update s.next entry none
    prev := Function.update s.prev entry none }

/-- The stage after the time to wait was computed. -/
def timed (args : Args) : Stage :=
  match args.timeout with
  | none => .waiting
  | some time =>
    match timeval2msec time with
    | none => .leaving
    | some _ => .waiting

/-- A call goes on to another stage. -/
def State.goto (s : State T A) (t : T) (call : Call A) (stage : Stage) : State T A :=
  { s with calls := Function.update s.calls t (some { call with stage := stage }) }

/-! ## Steps -/

/-- What the threads do. -/
inductive Op (T A : Type*)
  | enter (t : T) (args : Args) (found : Found A)
  | scan (t : T) (onlyDefault : Bool) (scan readyset : Int)
  | add (t : T)
  | time (t : T)
  | remove (t : T)
  | free (t : T)

/-- What a thread does when its call stands at a stage. -/
def State.at (s : State T A) (t : T) (stage : Stage) (next : Call A → State T A) :
    Option (State T A) :=
  match s.calls t with
  | some call => if call.stage = stage then some (next call) else none
  | none => none

/-- One step; `none` if the thread is not there. -/
def step (s : State T A) : Op T A → Option (State T A)
  | .enter t args found =>
    match s.calls t with
    | some _ => none
    | none => some (enter s t args found)
  | .scan t onlyDefault scan readyset =>
    s.at t .split fun call => s.goto t call (scanned call.args onlyDefault scan readyset)
  | .add t => s.at t .add fun call => (addCb s call.entry).goto t call .added
  | .time t => s.at t .added fun call => s.goto t call (timed call.args)
  | .remove t => s.at t .waiting fun call => (rmCb s call.entry).goto t call .leaving
  | .free t => s.at t .leaving fun call =>
    { s with
      allocated := Function.update s.allocated call.entry false
      calls := Function.update s.calls t none }

end steps

/-- An allocation returns an entry that is not in use. -/
def Offered (s : State T A) : Op T A → Prop
  | .enter _ _ found => ∀ a, found.alloc = some a → s.allocated a = false
  | _ => True

/-- The condition of a step: no call with a bad `nfds` and without a timeout is logged, and the time
a linked call waits for can be computed. -/
def Meets (s : State T A) : Op T A → Prop
  | .enter _ args found =>
    found.fw = .ready → found.logged = true → args.nfds > fdSetsize ∨ args.nfds < 0 →
      args.timeout ≠ none
  | .time t => ∀ call, s.calls t = some call → ∀ time ∈ call.args.timeout,
      1000 * time.sec + time.usec / 1000 < 2 ^ 64
  | _ => True

instance (s : State T A) : (op : Op T A) → Decidable (Offered s op)
  | .enter _ _ found =>
    inferInstanceAs (Decidable (∀ a ∈ found.alloc, s.allocated a = false))
  | .scan .. => instDecidableTrue
  | .add _ => instDecidableTrue
  | .time _ => instDecidableTrue
  | .remove _ => instDecidableTrue
  | .free _ => instDecidableTrue

instance (s : State T A) : (op : Op T A) → Decidable (Meets s op)
  | .enter _ args found => inferInstanceAs (Decidable (found.fw = .ready → found.logged = true →
      args.nfds > fdSetsize ∨ args.nfds < 0 → args.timeout ≠ none))
  | .time t => inferInstanceAs (Decidable (∀ call ∈ s.calls t, ∀ time ∈ call.args.timeout,
      1000 * time.sec + time.usec / 1000 < 2 ^ 64))
  | .scan .. => instDecidableTrue
  | .add _ => instDecidableTrue
  | .remove _ => instDecidableTrue
  | .free _ => instDecidableTrue

/-! ## What is claimed -/

/-- `next`, with the null pointer leading to the head. -/
def State.forward (s : State T A) : Option A → Option A
  | none => s.head
  | some a => s.next a

/-- `prev`, with the null pointer leading to the tail. -/
def State.backward (s : State T A) : Option A → Option A
  | none => s.tail
  | some a => s.prev a

/-- The call is linked and still waits. -/
def Stage.Waits (stage : Stage) : Prop := stage = .added ∨ stage = .waiting

/-- No null pointer was followed, and the list is well-formed in both directions, holds just the
entries of the calls that still wait, all of them allocated, and none that is about to be freed. -/
def Intact (s : State T A) : Prop :=
  s.crashed = false ∧ ∃ linked : List A,
    linked.Nodup ∧ Walk s.forward s.backward none (linked.map some) none ∧
    (∀ a, a ∈ linked ↔ ∃ t call, s.calls t = some call ∧ call.entry = a ∧ call.stage.Waits) ∧
    (∀ a ∈ linked, s.allocated a = true) ∧
    ∀ t call, s.calls t = some call → call.stage = .leaving → call.entry ∉ linked

/-! ## The time to wait -/

/-- The time can be computed unless it is negative or does not fit. -/
theorem isSome_timeval2msec (time : Timeval) (valid : 0 ≤ time.sec ∧ 0 ≤ time.usec) :
    (timeval2msec time).isSome ↔ 1000 * time.sec + time.usec / 1000 < 2 ^ 64 := by
  have max : maxU64Num = 18446744073709551615 := rfl
  have negative : ¬ (time.sec < 0 ∨ time.usec < 0) := by omega
  rw [timeval2msec, if_neg negative]
  by_cases large : maxU64Num / 1000 < time.sec.toNat
  · grind
  · rw [if_neg large, Nat.mod_eq_of_lt (by omega)]
    grind

/-- The call waits if its time can be computed, and leaves otherwise. -/
theorem timed_cases (args : Args) (valid : ∀ time ∈ args.timeout, 0 ≤ time.sec ∧ 0 ≤ time.usec) :
    timed args = .waiting ∧ (∀ time ∈ args.timeout, 1000 * time.sec + time.usec / 1000 < 2 ^ 64) ∨
      timed args = .leaving ∧
        ¬ ∀ time ∈ args.timeout, 1000 * time.sec + time.usec / 1000 < 2 ^ 64 := by
  grind [timed, isSome_timeval2msec]

/-! ## What holds of all calls -/

variable {s : State T A} {linked : List A} {t : T} {call : Call A}

/-- The list and the calls of the threads. -/
structure Sound (s : State T A) (linked : List A) : Prop where
  crashed : s.crashed = false
  nodup : linked.Nodup
  path : Walk s.forward s.backward none (linked.map some) none
  waits : ∀ a, a ∈ linked ↔
    ∃ t call, s.calls t = some call ∧ call.entry = a ∧ call.stage.Waits
  owned : ∀ t call, s.calls t = some call → s.allocated call.entry = true
  distinct : ∀ t u call other, s.calls t = some call → s.calls u = some other →
    call.entry = other.entry → t = u
  valid : ∀ t call, s.calls t = some call →
    ∀ time ∈ call.args.timeout, 0 ≤ time.sec ∧ 0 ≤ time.usec

theorem Sound.mem_iff (sound : Sound s linked) (known : s.calls t = some call) :
    call.entry ∈ linked ↔ call.stage.Waits := by grind [sound.waits, sound.distinct]

theorem Sound.intact (sound : Sound s linked) : Intact s := by
  refine ⟨sound.crashed, linked, sound.nodup, sound.path, sound.waits, ?_, ?_⟩
  · grind [sound.waits, sound.owned]
  · grind [sound.mem_iff, Stage.Waits]

theorem sound_start (T A : Type*) : Sound (start T A) [] where
  crashed := rfl
  nodup := List.nodup_nil
  path := ⟨rfl, rfl⟩
  waits a := by simp [start]
  owned t call known := by simp [start] at known
  distinct t u call other known := by simp [start] at known
  valid t call known := by simp [start] at known

theorem at_eq_some {stage : Stage} {next : Call A → State T A} {s' : State T A} :
    s.at t stage next = some s' ↔
      ∃ call, s.calls t = some call ∧ call.stage = stage ∧ next call = s' := by
  rw [State.at]
  cases s.calls t with
  | none => simp
  | some call => simp

theorem Sound.not_intact [DecidableEq T] (sound : Sound s linked)
    (known : s.calls t = some call) (stage : call.stage = .added) :
    ¬ Intact (s.goto t call .leaving) := by
  rintro ⟨-, other, -, path, -, -, leaving⟩
  have same : linked.map some = other.map some :=
    sound.path.unique path (by simp) (by simp)
  rw [(Option.some_injective A).list_map same] at sound
  have inside : call.entry ∈ other := (sound.mem_iff known).mpr (.inl stage)
  exact leaving t { call with stage := .leaving } (by simp [State.goto]) rfl inside

/-! ## Linking and unlinking -/

variable [DecidableEq A]

/-- `select_add_cb` puts an entry at the end of the ring. -/
theorem addCb_links (path : Walk s.forward s.backward none (linked.map some) none) (entry : A) :
    (addCb s entry).forward =
        Function.update (Function.update s.forward ((linked.map some).getLastD none) (some entry))
          (some entry) none ∧
      (addCb s entry).backward =
        Function.update (Function.update s.backward none (some entry)) (some entry)
          ((linked.map some).getLastD none) ∧
      (addCb s entry).crashed = s.crashed ∧ (addCb s entry).calls = s.calls ∧
      (addCb s entry).allocated = s.allocated := by
  have head : s.head = (linked.map some).headD none := path.next_start
  have tail : s.tail = (linked.map some).getLastD none := path.prev_end
  rw [← tail]
  rcases List.eq_nil_or_concat linked with rfl | ⟨rest, last, rfl⟩
  · have noHead : s.head = none := head
    have noTail : s.tail = none := tail
    simp only [addCb, noHead, noTail, and_true]
    constructor
    · funext c
      cases c <;> simp [State.forward, Function.update_apply]
    · funext c
      cases c <;> simp [State.backward, Function.update_apply]
  · have someTail : s.tail = some last := by simpa using tail
    have someHead : ∃ first, s.head = some first := by
      cases rest with
      | nil => exact ⟨last, head⟩
      | cons first rest => exact ⟨first, head⟩
    obtain ⟨first, someHead⟩ := someHead
    simp only [addCb, someHead, someTail, and_true]
    constructor
    · funext c
      cases c <;> simp [State.forward, Function.update_apply, someHead]
    · funext c
      cases c <;> simp [State.backward, Function.update_apply]

/-- The first half of `select_rm_cb`, for an entry at the head just if nothing stands before it. -/
theorem rmForward_links {entry : A} (first : s.head = some entry ↔ s.prev entry = none) :
    (rmForward s entry).forward = Function.update s.forward (s.prev entry) (s.next entry) := by
  funext c
  rw [rmForward]
  split_ifs with isHead
  · rw [first.mp isHead]
    cases c <;> simp [State.forward]
  · cases before : s.prev entry with
    | none => exact absurd (first.mpr before) isHead
    | some b => cases c <;> simp [State.forward, Function.update_apply]

/-- The second half, for an entry at the tail just if nothing stands after it. -/
theorem rmBackward_links {entry : A} (last : s.tail = some entry ↔ s.next entry = none) :
    (rmBackward s entry).backward = Function.update s.backward (s.next entry) (s.prev entry) := by
  funext c
  rw [rmBackward]
  split_ifs with isTail
  · rw [last.mp isTail]
    cases c <;> simp [State.backward]
  · cases after : s.next entry with
    | none => exact absurd (last.mpr after) isTail
    | some b => cases c <;> simp [State.backward, Function.update_apply]

theorem rmForward_same (s : State T A) (entry : A) :
    (rmForward s entry).backward = s.backward ∧ (rmForward s entry).crashed = s.crashed ∧
      (rmForward s entry).calls = s.calls ∧ (rmForward s entry).allocated = s.allocated := by
  rw [rmForward]
  split_ifs
  · exact ⟨rfl, rfl, rfl, rfl⟩
  · cases s.prev entry <;> exact ⟨rfl, rfl, rfl, rfl⟩

theorem rmBackward_same (s : State T A) (entry : A) :
    (rmBackward s entry).forward = s.forward ∧ (rmBackward s entry).crashed = s.crashed ∧
      (rmBackward s entry).calls = s.calls ∧ (rmBackward s entry).allocated = s.allocated := by
  rw [rmBackward]
  split_ifs
  · exact ⟨rfl, rfl, rfl, rfl⟩
  · cases s.next entry <;> exact ⟨rfl, rfl, rfl, rfl⟩

/-- Clearing the links of an entry matters to this entry only. -/
theorem rmCb_same (s : State T A) (entry : A) :
    (∀ c, c ≠ some entry →
        (rmCb s entry).forward c = (rmForward s entry).forward c ∧
        (rmCb s entry).backward c = (rmBackward (rmForward s entry) entry).backward c) ∧
      (rmCb s entry).crashed = s.crashed ∧ (rmCb s entry).calls = s.calls ∧
      (rmCb s entry).allocated = s.allocated := by
  have one := rmForward_same s entry
  have two := rmBackward_same (rmForward s entry) entry
  refine ⟨?_, two.2.1.trans one.2.1, two.2.2.1.trans one.2.2.1, two.2.2.2.trans one.2.2.2⟩
  intro c apart
  rw [← two.1]
  cases c with
  | none => exact ⟨rfl, rfl⟩
  | some a =>
    simp only [rmCb, State.forward, State.backward]
    grind

/-- The list without an entry. -/
theorem rmCb_path {entry : A} {front back : List A}
    (path : Walk s.forward s.backward none ((front ++ entry :: back).map some) none)
    (nodup : (front ++ entry :: back).Nodup) :
    Walk (rmCb s entry).forward (rmCb s entry).backward none ((front ++ back).map some) none := by
  simp only [List.map_append, List.map_cons] at path ⊢
  have pointers : (front.map some ++ some entry :: back.map some).Nodup := by
    rw [← List.map_cons, ← List.map_append]
    exact nodup.map (Option.some_injective A)
  have sources : (none :: (front.map some ++ some entry :: back.map some)).Nodup :=
    List.nodup_cons.mpr ⟨by simp, pointers⟩
  have targets : (front.map some ++ some entry :: back.map some ++ [none]).Nodup := by
    rw [List.nodup_append_comm]
    exact sources
  have fresh : entry ∉ front ++ back := by
    rw [List.nodup_middle] at nodup
    exact (List.nodup_cons.mp nodup).1
  have removed := path.remove sources targets
  have around := path.around
  -- The entry is the head just if nothing stands before it, and the tail just if nothing after.
  have first : s.head = some entry ↔ s.prev entry = none := path.first_iff sources
  have last : s.tail = some entry ↔ s.next entry = none := path.last_iff targets
  have notSelf : s.backward (some entry) ≠ some entry := by
    apply path.reverse.next_ne
    · rw [← List.nodup_reverse] at sources
      simpa using sources
    · simp
  have forward := rmForward_links first
  have same := rmForward_same s entry
  have nextSame : (rmForward s entry).next entry = s.next entry :=
    (congrFun forward (some entry)).trans (Function.update_of_ne notSelf.symm _ _)
  have prevSame : (rmForward s entry).prev entry = s.prev entry := congrFun same.1 (some entry)
  have tailSame : (rmForward s entry).tail = s.tail := congrFun same.1 none
  have backward := rmBackward_links (s := rmForward s entry)
    (by rw [tailSame, nextSame]; exact last)
  rw [same.1, nextSame, prevSame] at backward
  have others := (rmCb_same s entry).1
  have apart : ∀ c ∈ front.map some ++ back.map some, c ≠ some entry := by
    rintro c mem rfl
    rw [← List.map_append] at mem
    simp only [List.mem_map, Option.some.injEq, exists_eq_right] at mem
    exact fresh mem
  apply removed.congr
  · intro c mem
    have other : c ≠ some entry := by
      rcases List.mem_cons.mp mem with rfl | inside
      · simp
      · exact apart c inside
    rw [(others c other).1, forward]
    rfl
  · intro c mem
    have other : c ≠ some entry := by
      rcases List.mem_append.mp mem with inside | isEnd
      · exact apart c inside
      · rw [List.mem_singleton.mp isEnd]
        simp
    rw [(others c other).2, backward]
    rfl

/-! ## The steps -/

variable [DecidableEq T]

/-- A call goes on to a stage after which the list holds the right entries. -/
theorem Sound.goto {s' : State T A} {linked' : List A} (sound : Sound s linked)
    (known : s.calls t = some call) (stage : Stage) (crashed : s'.crashed = false)
    (nodup : linked'.Nodup) (path : Walk s'.forward s'.backward none (linked'.map some) none)
    (calls : s'.calls = s.calls) (allocated : s'.allocated = s.allocated)
    (mine : call.entry ∈ linked' ↔ stage.Waits)
    (others : ∀ a, a ≠ call.entry → (a ∈ linked' ↔ a ∈ linked)) :
    Sound (s'.goto t call stage) linked' := by
  have lookup : ∀ u, (s'.goto t call stage).calls u =
      if u = t then some { call with stage := stage } else s.calls u := by
    simp only [State.goto]
    grind
  -- Every call is one from before, up to its stage.
  have before : ∀ u other, (s'.goto t call stage).calls u = some other →
      ∃ old, s.calls u = some old ∧ old.entry = other.entry ∧ old.args = other.args := by grind
  refine ⟨crashed, nodup, path, ?_, ?_, ?_, ?_⟩
  · intro a
    by_cases same : a = call.entry
    · grind [sound.distinct]
    · grind [sound.waits]
  · intro u other found
    obtain ⟨old, oldFound, oldEntry, -⟩ := before u other found
    rw [← oldEntry]
    simp only [State.goto, allocated]
    exact sound.owned u old oldFound
  · intro u v one two foundOne foundTwo same
    obtain ⟨oldOne, inOne, entryOne, -⟩ := before u one foundOne
    obtain ⟨oldTwo, inTwo, entryTwo, -⟩ := before v two foundTwo
    apply sound.distinct u v oldOne oldTwo inOne inTwo
    rw [entryOne, entryTwo, same]
  · intro u other found
    obtain ⟨old, oldFound, -, args⟩ := before u other found
    rw [← args]
    exact sound.valid u old oldFound

theorem Sound.stay (sound : Sound s linked) (known : s.calls t = some call) (stage : Stage)
    (same : stage.Waits ↔ call.stage.Waits) : Sound (s.goto t call stage) linked :=
  sound.goto known stage sound.crashed sound.nodup sound.path rfl rfl
    ((sound.mem_iff known).trans same.symm) fun _ _ => Iff.rfl

/-- Linking the entry of a call. -/
theorem Sound.add (sound : Sound s linked) (known : s.calls t = some call)
    (stage : call.stage = .add) :
    Sound ((addCb s call.entry).goto t call .added) (linked ++ [call.entry]) := by
  have fresh : call.entry ∉ linked := by
    rw [sound.mem_iff known, stage, Stage.Waits]
    simp
  have links := addCb_links sound.path call.entry
  have pointers : (linked.map some).Nodup := sound.nodup.map (Option.some_injective A)
  have path : Walk (addCb s call.entry).forward (addCb s call.entry).backward none
      ((linked ++ [call.entry]).map some) none := by
    rw [links.1, links.2.1, List.map_append]
    have cut : Walk s.forward s.backward none (linked.map some ++ []) none := by
      simpa using sound.path
    apply cut.insert
    · simpa using pointers
    · simpa [List.nodup_append] using pointers
    · simpa using fresh
    · simp
  apply sound.goto known .added (links.2.2.1.trans sound.crashed) _ path links.2.2.2.1
    links.2.2.2.2
  · simp [Stage.Waits]
  · intro a other
    simp [other]
  · rw [List.nodup_append_comm]
    exact List.nodup_cons.mpr ⟨fresh, sound.nodup⟩

theorem Sound.remove (sound : Sound s linked) (known : s.calls t = some call)
    (stage : call.stage = .waiting) :
    ∃ linked', Sound ((rmCb s call.entry).goto t call .leaving) linked' := by
  have inside : call.entry ∈ linked := (sound.mem_iff known).mpr (.inr stage)
  obtain ⟨front, back, rfl⟩ := List.append_of_mem inside
  have nodup := sound.nodup
  rw [List.nodup_middle, List.nodup_cons] at nodup
  have same := (rmCb_same s call.entry).2
  refine ⟨front ++ back, sound.goto known .leaving (same.1.trans sound.crashed) nodup.2
    (rmCb_path sound.path sound.nodup) same.2.1 same.2.2 ?_ ?_⟩
  · simpa [Stage.Waits] using nodup.1
  · intro a other
    simp [other]

theorem Sound.free (sound : Sound s linked) (known : s.calls t = some call)
    (stage : call.stage = .leaving) :
    Sound { s with
      allocated := Function.update s.allocated call.entry false
      calls := Function.update s.calls t none } linked := by
  -- The calls that remain are other calls, with other entries.
  have remain : ∀ u other, Function.update s.calls t none u = some other →
      s.calls u = some other ∧ u ≠ t := by grind
  refine ⟨sound.crashed, sound.nodup, sound.path, ?_, ?_, ?_, ?_⟩
  · grind [sound.waits, Stage.Waits]
  · grind [sound.distinct, sound.owned]
  · grind [sound.distinct]
  · intro u other found
    exact sound.valid u other (remain u other found).1

theorem Sound.alloc (sound : Sound s linked) (idle : s.calls t = none) {args : Args}
    (valid : ¬ args.Invalid) {a : A} (fresh : s.allocated a = false) :
    Sound { s with
      next := Function.update s.next a none
      prev := Function.update s.prev a none
      allocated := Function.update s.allocated a true
      calls := Function.update s.calls t (some ⟨args, a, .split⟩) } linked := by
  have unused : ∀ u other, s.calls u = some other → other.entry ≠ a := by
    rintro u other found rfl
    rw [sound.owned u other found] at fresh
    simp at fresh
  have outside : a ∉ linked := by grind [sound.waits]
  have now : ∀ u other,
      Function.update s.calls t (some ⟨args, a, .split⟩) u = some other →
      u = t ∧ other = ⟨args, a, .split⟩ ∨ u ≠ t ∧ s.calls u = some other := by grind
  refine ⟨sound.crashed, sound.nodup, ?_, ?_, ?_, ?_, ?_⟩
  · grind [sound.path.congr, State.forward, State.backward]
  · grind [sound.waits, Stage.Waits]
  · grind [sound.owned]
  · grind [sound.distinct]
  · grind [Args.Invalid, sound.valid]

/-- A call until its entry is allocated. -/
theorem Sound.enter (sound : Sound s linked) (idle : s.calls t = none) (args : Args)
    {found : Found A} (offered : ∀ a, found.alloc = some a → s.allocated a = false) :
    (Meets s (.enter t args found) → Sound (enter s t args found) linked) ∧
      (¬ Meets s (.enter t args found) → (Entries.enter s t args found).crashed = true) := by
  rw [Entries.enter]
  cases fw : found.fw with
  | initing =>
    exact ⟨fun _ => sound, fun fails => absurd (fun ready => by simp [fw] at ready) fails⟩
  | failed =>
    exact ⟨fun _ => sound, fun fails => absurd (fun ready => by simp [fw] at ready) fails⟩
  | ready =>
    simp only [Meets, fw, true_implies]
    by_cases invalid : args.Invalid
    · rw [if_pos invalid]
      by_cases follows : found.logged = true ∧ args.timeout.isNone
      · rw [if_pos follows]
        refine ⟨fun meets => ?_, fun _ => rfl⟩
        have noTime : args.timeout = none := Option.isNone_iff_eq_none.mp follows.2
        grind [Args.Invalid]
      · grind
    · rw [if_neg invalid]
      have meets : found.logged = true → args.nfds > fdSetsize ∨ args.nfds < 0 →
          args.timeout ≠ none := by
        intro _ bad
        exact absurd (bad.elim .inl fun negative => .inr (.inl negative)) invalid
      grind [sound.alloc]

/-- One step from a sound state: what is claimed holds afterwards just if the condition is met. -/
theorem Sound.step (sound : Sound s linked) {op : Op T A} (offered : Offered s op)
    {s' : State T A} (taken : step s op = some s') :
    (Meets s op → ∃ linked', Sound s' linked') ∧ (¬ Meets s op → ¬ Intact s') := by
  cases op with
  | enter t args found =>
    simp only [Entries.step] at taken
    cases idle : s.calls t with
    | some call => simp [idle] at taken
    | none =>
      simp only [idle, Option.some.injEq] at taken
      subst taken
      have entered := sound.enter idle args offered
      refine ⟨fun meets => ⟨linked, entered.1 meets⟩, fun fails intact => ?_⟩
      exact absurd (intact.1.symm.trans (entered.2 fails)) (by decide)
  | scan t onlyDefault scan readyset =>
    refine ⟨fun _ => ?_, fun fails => absurd trivial fails⟩
    obtain ⟨call, known, stage, rfl⟩ := at_eq_some.mp taken
    refine ⟨linked, sound.stay known _ ?_⟩
    rw [stage, scanned]
    split_ifs <;> simp [Stage.Waits]
  | add t =>
    refine ⟨fun _ => ?_, fun fails => absurd trivial fails⟩
    obtain ⟨call, known, stage, rfl⟩ := at_eq_some.mp taken
    exact ⟨_, sound.add known stage⟩
  | time t =>
    obtain ⟨call, known, stage, rfl⟩ := at_eq_some.mp taken
    simp only [Meets, known, Option.some.injEq, forall_eq']
    rcases timed_cases call.args (sound.valid t call known) with ⟨eq, fits⟩ | ⟨eq, large⟩
    · refine ⟨fun _ => ⟨linked, ?_⟩, fun fails => absurd fits fails⟩
      rw [eq]
      exact sound.stay known .waiting (by simp [stage, Stage.Waits])
    · grind [sound.not_intact]
  | remove t =>
    refine ⟨fun _ => ?_, fun fails => absurd trivial fails⟩
    obtain ⟨call, known, stage, rfl⟩ := at_eq_some.mp taken
    exact sound.remove known stage
  | free t =>
    refine ⟨fun _ => ?_, fun fails => absurd trivial fails⟩
    obtain ⟨call, known, stage, rfl⟩ := at_eq_some.mp taken
    exact ⟨linked, sound.free known stage⟩

/-! ## The result -/

/-- In every state reached by steps that meet the condition nothing was followed through a null
pointer, the list is well-formed and holds just the entries of the calls that wait, and none that is
about to be freed; and a further step, of whatever arguments, leaves it so just if it meets the
condition. -/
theorem entries_intact_iff (s : State T A)
    (run : Runs step (fun s op => Offered s op ∧ Meets s op) (start T A) s) :
    Intact s ∧ ∀ op s', Offered s op → step s op = some s' → (Intact s' ↔ Meets s op) := by
  have reached : ∃ linked, Sound s linked := by
    refine run.invariant (P := fun s => ∃ linked, Sound s linked) ⟨[], sound_start T A⟩ ?_
    rintro s op s' ⟨linked, sound⟩ ⟨offered, meets⟩ taken
    exact (sound.step offered taken).1 meets
  obtain ⟨linked, sound⟩ := reached
  refine ⟨sound.intact, fun op s' offered taken => ?_⟩
  have next := sound.step offered taken
  constructor
  · intro intact
    by_contra fails
    exact next.2 fails intact
  · intro meets
    obtain ⟨linked', sound'⟩ := next.1 meets
    exact sound'.intact

/-- Arguments to read, with a timeout of seconds. -/
def reading (sec : Int) (small : sec < 2 ^ 63) : Args :=
  ⟨8, true, false, false, some ⟨sec, 0, small, by decide⟩⟩

/-- What a call finds that gets an entry. -/
def finds (a : Nat) : Found Nat := ⟨.ready, true, true, some a⟩

/-- A thread calls and links its entry. -/
def links (t a : Nat) (args : Args) : List (Op Nat Nat) :=
  [.enter t args (finds a), .scan t false 1 0, .add t]

/-- Two calls wait, and the first is woken. -/
theorem entries_intact_two :
    ∃ s s' : State Nat Nat, Runs step (fun s op => Offered s op ∧ Meets s op) (start Nat Nat) s ∧
      Intact s ∧ s.head = some 10 ∧ s.tail = some 20 ∧ step s (.remove 0) = some s' ∧
      Intact s' ∧ s'.head = some 20 := by
  obtain ⟨s, run, passed⟩ :
      ∃ s : State Nat Nat, Runs step (fun s op => Offered s op ∧ Meets s op) (start Nat Nat) s ∧
        decide (s.head = some 10 ∧ s.tail = some 20 ∧
          (step s (.remove 0)).any fun s' => decide (s'.head = some 20)) = true :=
    exists_runs_of_execute (fun s op => decide (Offered s op ∧ Meets s op))
      (links 0 10 (reading 3 (by decide)) ++ [.time 0] ++ links 1 20 (reading 5 (by decide)) ++
        [.time 1])
      (fun _ _ => of_decide_eq_true) (by decide +kernel)
  obtain ⟨head, tail, woken⟩ := of_decide_eq_true passed
  cases next : step s (.remove 0) with
  | none => simp [next] at woken
  | some s' =>
    have intact := entries_intact_iff s run
    refine ⟨s, s', run, intact.1, head, tail, next,
      (intact.2 (.remove 0) s' trivial next).mpr trivial, ?_⟩
    simpa [next] using woken

/-- A call is to wait for more milliseconds than 64 bits hold: its entry is freed and stays linked.
A call with more fds than fit and without a timeout follows the null pointer. -/
theorem freed_entry_linked :
    (∃ s timed freed : State Nat Nat,
      Runs step (fun s op => Offered s op ∧ Meets s op) (start Nat Nat) s ∧
      step s (.time 0) = some timed ∧ step timed (.free 0) = some freed ∧
      freed.head = some 10 ∧ freed.allocated 10 = false ∧ ¬ Intact freed) ∧
    (enter (start Nat Nat) 0 ⟨2000, true, false, false, none⟩ (finds 10)).crashed = true := by
  refine ⟨?_, by decide⟩
  obtain ⟨s, run, passed⟩ :
      ∃ s : State Nat Nat, Runs step (fun s op => Offered s op ∧ Meets s op) (start Nat Nat) s ∧
        (((step s (.time 0)).bind (step · (.free 0))).any fun freed =>
          decide (freed.head = some 10 ∧ freed.allocated 10 = false)) = true :=
    exists_runs_of_execute (fun s op => decide (Offered s op ∧ Meets s op))
      (links 0 10 (reading 18446744073709552 (by decide)))
      (fun _ _ => of_decide_eq_true) (by decide +kernel)
  cases first : step s (.time 0) with
  | none => simp [first] at passed
  | some timed =>
    cases second : step timed (.free 0) with
    | none => simp [first, second] at passed
    | some freed =>
      simp only [first, second, Option.bind_some, Option.any_some, decide_eq_true_eq] at passed
      refine ⟨s, timed, freed, run, first, second, passed.1, passed.2, ?_⟩
      rintro ⟨-, linked, -, path, -, allocated, -⟩
      have head : freed.head = (linked.map some).headD none := path.next_start
      rw [passed.1] at head
      cases linked with
      | nil => simp at head
      | cons a rest =>
        obtain rfl : 10 = a := by simpa using head
        have still := allocated 10 (by simp)
        rw [passed.2] at still
        simp at still

end Dmm.Select.Entries
