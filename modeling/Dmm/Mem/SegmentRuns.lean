import Dmm.Mem.SegmentSound

/-!
# Runs of a segment

Every run of `dmm_mem_alloc`, `dmm_mem_map`, `dmm_mem_unmap` and `dmm_mem_free` on a segment
that `dmm_seg_create` has built, by clients that give back what they have. Giving back a
section that an exact fit has left in the free list without free space, or one behind such
a section, breaks the list; without such a step the representation invariant holds in every
state and every operation returns.
-/

namespace Dmm.Mem

open Dmm.Word Dmm.Linked

variable {seg : Segment} {sec : Int} {mid ring : List Int} {size : UInt64}

/-- `mem_lookup` returns, and finds no section but those in the middle of the chain. -/
theorem Chain.memLookup (chain : Chain seg mid) (name : List UInt8) :
    ∃ sec, Settles (fun fuel => memLookup fuel seg name) seg.totalNum.toNat sec ∧
      ∀ found ∈ sec, found ∈ mid := by
  let stop : Int → Bool := fun sec => sec == seg.first || named (seg.sec sec) name
  have atLast : stop seg.last = false := by
    have apart : seg.last ≠ seg.first := by
      rintro same
      exact chain.last_not_mem (List.mem_cons.mpr (.inl same))
    have blank : (seg.sec seg.last).name.headD 0 = 0 := chain.last_name
    simp only [stop]
    rw [beq_false_of_ne apart, Bool.false_or, named, blank]
    rfl
  obtain ⟨m₁, m₂, rfl, _, _, settles⟩ := chain.path.seek_prev stop (by simp [stop])
  rw [← chain.path.prev_end] at settles
  have short := chain.length_lt
  have bound : (m₁ ++ m₂).length + 1 + 1 ≤ seg.totalNum.toNat := by omega
  refine ⟨_, ((seek_on atLast settles).mono bound).map _, ?_⟩
  intro found isFound
  split_ifs at isFound with none
  · contradiction
  · have same := Option.mem_some_iff.mp isFound
    have inside := getLastD_mem m₁ seg.first
    rw [same] at none inside
    exact List.mem_append_left m₂ ((List.mem_cons.mp inside).resolve_left none)

theorem Chain.rename (chain : Chain seg mid) (member : sec ∈ mid) (name : List UInt8) :
    Chain (seg.modify sec fun s => { s with name := name }) mid := by
  have other : seg.last ≠ sec := by
    rintro same
    exact chain.last_not_mem (same ▸ List.mem_cons_of_mem _ member)
  refine chain.congr rfl rfl rfl (fun _ => Segment.field_modify Section.prevRel fun _ => rfl)
    (fun _ => Segment.field_modify Section.usedNum fun _ => rfl)
    (fun _ => Segment.field_modify Section.freeNum fun _ => rfl) ?_
  rw [Segment.sec_modify, if_neg other]

/-- A section's name is no part of the invariant. -/
theorem Sound.rename (sound : Sound seg mid ring) (member : sec ∈ mid) (name : List UInt8) :
    Sound (seg.modify sec fun s => { s with name := name }) mid ring := by
  have field {α : Type} (f : Section → α) (keeps : ∀ s, f { s with name := name } = f s)
      (i : Int) : f ((seg.modify sec fun s => { s with name := name }).sec i) = f (seg.sec i) :=
    Segment.field_modify f keeps
  have free := field Section.freeNum fun _ => rfl
  constructor
  · exact sound.chain.rename member name
  · refine ⟨sound.list.modify sec _ fun _ => ⟨rfl, rfl⟩, ?_, sound.list.within, ?_⟩
    · exact sound.list.sorted.congr fun c _ => free c
    · intro s inside space
      rw [free] at space
      exact sound.list.covers s inside space
  · exact sound.counts.congr (List.Perm.refl _) rfl rfl rfl
      (fun s _ => field Section.usedNum (fun _ => rfl) s)
      (fun s _ => field Section.reqSize (fun _ => rfl) s)
  · exact sound.small

/-- A segment has at least three blocks, and their number is an `int`. -/
theorem alignSection_bounds {base size : UInt64} {first total : Int}
    (aligned : alignSection base size = some (first, total)) : 3 ≤ total ∧ total < 2 ^ 31 := by
  have header : segNum = 2 := by decide
  unfold alignSection at aligned
  simp only [header] at aligned
  split_ifs at aligned with large small
  have fits := UInt64.le_iff_toNat_le.mp (UInt64.not_lt.mp large)
  have count := congrArg Prod.snd (Option.some.inj aligned)
  simp only at count
  have limit : (0x7fffFFFF : UInt64).toNat = 2 ^ 31 - 1 := rfl
  omega

theorem create_spec {memory : Int → Section} {base size : UInt64}
    (created : dmmSegCreate memory base size = some seg) :
    3 ≤ seg.totalNum ∧ seg.totalNum < 2 ^ 31 ∧ seg.last = seg.first + (seg.totalNum - 1) ∧
      seg.secNum = 2 ∧ seg.usedSize = 56 ∧ seg.usedNum = 2 ∧
      seg.sec seg.first =
        { prevRel := 0, usedNum := 2, freeNum := seg.totalNum - 3, reqSize := 56,
          lessRel := seg.last - seg.first, moreRel := seg.last - seg.first,
          name := 0 :: strncpy firstName (dmmMemNameSize - 1) } ∧
      seg.sec seg.last =
        { prevRel := seg.first - seg.last, usedNum := 0, freeNum := 0, reqSize := 0,
          lessRel := seg.first - seg.last, moreRel := seg.first - seg.last,
          name := 0 :: strncpy lastName (dmmMemNameSize - 1) } := by
  obtain ⟨⟨first, total⟩, aligned, rfl⟩ := Option.map_eq_some_iff.mp created
  obtain ⟨least, most⟩ := alignSection_bounds aligned
  have header : segNum = 2 := by decide
  have apart : first ≠ first + (total - 1) := by omega
  refine ⟨least, most, rfl, rfl, rfl, ?_, ?_, Function.update_self _ _ _⟩
  · simp only [header]
  refine (Function.update_of_ne apart _ _).trans ((Function.update_self _ _ _).trans ?_)
  rw [header]
  rfl

/-- A new segment: two sections, the first with all the free space. -/
theorem sound_create {memory : Int → Section} {base size : UInt64}
    (created : dmmSegCreate memory base size = some seg) : Sound seg [] [seg.first] := by
  obtain ⟨least, most, last, secNum, usedSize, usedNum, atFirst, atLast⟩ :=
    create_spec created
  have apart : seg.first ≠ seg.last := by omega
  constructor
  · constructor
    · constructor
      · rw [Segment.nextSec, atFirst, last]
        simp only
        omega
      · rw [Segment.prevSec, atLast, add_sub_cancel]
    · rw [atFirst]
    · simp [atFirst]
    · simp [atFirst, least]
    · rw [atLast]
    · rw [atLast]
    · rw [atLast]
      rfl
    · exact last
  · constructor
    · constructor
      · simp [Walk, Segment.moreSec, Segment.lessSec, atFirst, atLast]
      · simp [apart.symm]
    all_goals simp [Sorted]
  · constructor
    all_goals simp [atFirst, atLast, secNum, usedSize, usedNum]
  · exact most

/-! ## Clients -/

/-- A call of a client. -/
inductive Op where
  | alloc (size : UInt64)
  | map (size : UInt64) (name : Option (List UInt8))
  | unmap (name : Option (List UInt8))
  | free (mem : Int)
  deriving DecidableEq, Repr

/-- A segment and the addresses its clients have. -/
structure World where
  seg : Segment
  live : Finset Int

/-- A call: the segment changes, and so do the addresses the clients have. -/
def World.exec (fuel : Nat) (w : World) : Op → Option World
  | .alloc size => (dmmMemAlloc fuel w.seg size).map fun (mem, seg) =>
    ⟨seg, w.live ∪ mem.toFinset⟩
  | .map size name => (dmmMemMap fuel w.seg size name).map fun (mem, seg) =>
    ⟨seg, w.live ∪ mem.toFinset⟩
  | .unmap name => (dmmMemLookup fuel w.seg name).bind fun mem =>
    (dmmMemUnmap fuel w.seg name).map fun (_, seg) => ⟨seg, w.live \ mem.toFinset⟩
  | .free mem => (dmmMemFree fuel w.seg mem).map fun (_, seg) => ⟨seg, w.live \ {mem}⟩

/-- Clients give back only what they have and ask for no more than the segment's size. -/
def World.Admits (w : World) : Op → Prop
  | .alloc size => size ≤ w.seg.size
  | .map size _ => size ≤ w.seg.size
  | .unmap _ => True
  | .free mem => mem ∈ w.live

/-- The section that has a name. -/
def mapped (seg : Segment) (name : Option (List UInt8)) : Option Int :=
  (given name).bind fun name => (memLookup seg.totalNum.toNat seg name).join

/-- A name that `dmm_mem_map` takes. -/
def acceptable (name : Option (List UInt8)) : Bool :=
  (given name).any fun name => (cString name).length < dmmMemNameSize

/-- What a call needs: a request that is really made is countable, and a section that is
really given back can be merged. -/
def Meets (w : World) : Op → Prop
  | .alloc size => Countable size
  | .map size name => acceptable name → mapped w.seg name = none → Countable size
  | .unmap name => ∀ sec ∈ mapped w.seg name, Mergeable w.seg sec
  | .free mem => Mergeable w.seg (mem / 64 - 1)

/-- The states of a run of admitted calls that also meet a condition. -/
inductive Reached (may : World → Op → Prop) (start : World) : World → Prop
  | refl : Reached may start start
  | step {w w' : World} {op : Op} {fuel : Nat} (before : Reached may start w)
    (admitted : w.Admits op) (met : may w op) (returned : w.exec fuel op = some w') :
    Reached may start w'

/-- The clients have the sections in the middle of the chain. -/
def Owns (live : Finset Int) (mid : List Int) : Prop :=
  ∀ mem, mem ∈ live ↔ ∃ sec ∈ mid, address sec = mem

/-- The invariant of a run. -/
def Holds (w : World) : Prop := ∃ mid ring, Sound w.seg mid ring ∧ Owns w.live mid

theorem address_inj {s t : Int} : address s = address t ↔ s = t := by
  unfold address
  omega

theorem Owns.union {live : Finset Int} {mid' : List Int} {out : Option Int} (owns : Owns live mid)
    (order : List.Perm mid' (out.toList ++ mid)) :
    Owns (live ∪ (out.map address).toFinset) mid' := by
  intro mem
  rw [Finset.mem_union, owns]
  cases out with
  | none => simp [order.mem_iff]
  | some sec =>
    simp only [Option.map_some, Option.toFinset_some, Finset.mem_singleton, order.mem_iff,
      Option.toList_some, List.singleton_append, List.exists_mem_cons_iff, or_comm, eq_comm]

theorem Owns.sdiff {live : Finset Int} {mid' : List Int} (out : Option Int) (owns : Owns live mid)
    (order : List.Perm mid (out.toList ++ mid')) (distinct : mid.Nodup) :
    Owns (live \ (out.map address).toFinset) mid' := by
  intro mem
  rw [Finset.mem_sdiff, owns]
  cases out with
  | none => simp [order.mem_iff]
  | some sec =>
    have once : sec ∉ mid' := (List.nodup_cons.mp (order.nodup_iff.mp distinct)).1
    rw [Option.map_some, Option.toFinset_some, Finset.mem_singleton]
    constructor
    · rintro ⟨⟨s, inside, rfl⟩, other⟩
      rcases List.mem_cons.mp (order.mem_iff.mp inside) with rfl | rest
      · exact absurd rfl other
      · exact ⟨s, rest, rfl⟩
    · rintro ⟨s, inside, rfl⟩
      constructor
      · exact ⟨s, order.mem_iff.mpr (List.mem_cons_of_mem sec inside), rfl⟩
      · intro same
        exact once (address_inj.mp same ▸ inside)

theorem Sound.exec_alloc {w : World} (sound : Sound w.seg mid ring) (owns : Owns w.live mid)
    (countable : Countable size) :
    ∃ w', Settles (fun fuel => w.exec fuel (.alloc size)) w.seg.totalNum.toNat w' ∧ Holds w' := by
  obtain ⟨sec, seg', mid', ring', settles, sound', order⟩ := sound.memAlloc countable
  exact ⟨_, (settles.map _).map _, mid', ring', sound', owns.union order⟩

theorem Sound.exec_free {w : World} (sound : Sound w.seg mid ring) (owns : Owns w.live mid)
    {mem : Int} (live : mem ∈ w.live) (mergeable : Mergeable w.seg (mem / 64 - 1)) :
    ∃ w', Settles (fun fuel => w.exec fuel (.free mem)) w.seg.totalNum.toNat w' ∧ Holds w' := by
  obtain ⟨sec, member, rfl⟩ := (owns mem).mp live
  have bounds := sound.chain.bounds (List.mem_cons_of_mem _ member)
  have valid : checkAddr w.seg (address sec) = 0 := by
    unfold checkAddr address
    rw [if_neg (by omega), if_neg (by omega), if_neg (by omega)]
  have back : address sec / 64 - 1 = sec := by
    unfold address
    omega
  rw [back] at mergeable
  obtain ⟨m₁, m₂, rfl⟩ := List.append_of_mem member
  obtain ⟨seg', ring', settles, sound'⟩ := sound.memFree mergeable
  have owns' := owns.sdiff (some sec) List.perm_middle
    (List.nodup_cons.mp sound.chain.nodup).2
  simp only [World.exec, dmmMemFree, valid, back, ne_eq, not_true_eq_false, if_false]
  exact ⟨_, (settles.map _).map _, m₁ ++ m₂, ring', sound', owns'⟩

/-- `dmm_mem_map` allocates a section, or none. -/
theorem Sound.dmmMemMap {name : Option (List UInt8)} (sound : Sound seg mid ring)
    (countable : acceptable name → mapped seg name = none → Countable size) :
    ∃ (sec : Option Int) (seg' : Segment) (mid' ring' : List Int),
      Settles (fun fuel => dmmMemMap fuel seg size name) seg.totalNum.toNat
        (sec.map address, seg') ∧
      Sound seg' mid' ring' ∧ List.Perm mid' (sec.toList ++ mid) := by
  have unchanged (out : Nat → Option (Option Int × Segment))
      (settles : Settles out seg.totalNum.toNat (none, seg)) :
      ∃ sec seg' mid' ring', Settles out seg.totalNum.toNat (Option.map address sec, seg') ∧
        Sound seg' mid' ring' ∧ List.Perm mid' (sec.toList ++ mid) :=
    ⟨none, seg, mid, ring, settles, sound, List.Perm.refl _⟩
  cases isGiven : given name with
  | none =>
    simp only [Mem.dmmMemMap, isGiven]
    exact unchanged _ (.now _ _)
  | some bytes =>
    simp only [Mem.dmmMemMap, isGiven]
    by_cases long : (cString bytes).length ≥ dmmMemNameSize
    · simp only [if_pos long]
      exact unchanged _ (.now _ _)
    · simp only [if_neg long]
      obtain ⟨found, lookup, _⟩ := sound.chain.memLookup bytes
      cases found with
      | some _ => exact unchanged _ (lookup.bind (.now _ _))
      | none =>
        have absent : mapped seg name = none := by
          rw [mapped, isGiven, Option.bind_some, lookup.enough _ (le_refl _)]
          rfl
        have short : acceptable name := by
          rw [acceptable, isGiven]
          simpa using long
        obtain ⟨sec, seg', mid', ring', settles, sound', order⟩ :=
          sound.memAlloc (countable short absent)
        cases sec with
        | none => exact ⟨none, seg', mid', ring', lookup.bind (settles.map _), sound', order⟩
        | some sec =>
          have member : sec ∈ mid' := order.mem_iff.mpr (by simp)
          exact ⟨some sec, _, mid', ring', lookup.bind (settles.map _),
            sound'.rename member _, order⟩

theorem Sound.exec_map {w : World} {name : Option (List UInt8)} (sound : Sound w.seg mid ring)
    (owns : Owns w.live mid)
    (countable : acceptable name → mapped w.seg name = none → Countable size) :
    ∃ w', Settles (fun fuel => w.exec fuel (.map size name)) w.seg.totalNum.toNat w' ∧
      Holds w' := by
  obtain ⟨sec, seg', mid', ring', settles, sound', order⟩ := sound.dmmMemMap countable
  exact ⟨_, settles.map _, mid', ring', sound', owns.union order⟩

/-- `dmm_mem_lookup` finds the section that has the name. -/
theorem Sound.dmmMemLookup (sound : Sound seg mid ring) (name : Option (List UInt8)) :
    Settles (fun fuel => dmmMemLookup fuel seg name) seg.totalNum.toNat
      ((mapped seg name).map address) := by
  unfold mapped
  cases isGiven : given name with
  | none =>
    simp only [Mem.dmmMemLookup, isGiven]
    exact .now _ _
  | some bytes =>
    obtain ⟨found, lookup, _⟩ := sound.chain.memLookup bytes
    simp only [Mem.dmmMemLookup, isGiven]
    rw [Option.bind_some, lookup.enough _ (le_refl _)]
    exact lookup.map _

/-- `dmm_mem_unmap` gives the section back that has the name. -/
theorem Sound.dmmMemUnmap {name : Option (List UInt8)} (sound : Sound seg mid ring)
    (mergeable : ∀ sec ∈ mapped seg name, Mergeable seg sec) :
    ∃ (status : Int) (seg' : Segment) (mid' ring' : List Int),
      Settles (fun fuel => dmmMemUnmap fuel seg name) seg.totalNum.toNat (status, seg') ∧
      Sound seg' mid' ring' ∧ List.Perm mid ((mapped seg name).toList ++ mid') := by
  unfold mapped at mergeable ⊢
  cases isGiven : given name with
  | none =>
    simp only [Mem.dmmMemUnmap, isGiven]
    exact ⟨-1, seg, mid, ring, .now _ _, sound, List.Perm.refl _⟩
  | some bytes =>
    obtain ⟨found, lookup, inside⟩ := sound.chain.memLookup bytes
    simp only [Mem.dmmMemUnmap, isGiven]
    rw [isGiven, Option.bind_some, lookup.enough _ (le_refl _)] at mergeable
    rw [Option.bind_some, lookup.enough _ (le_refl _)]
    cases found with
    | none => exact ⟨-1, seg, mid, ring, lookup.bind (.now _ _), sound, List.Perm.refl _⟩
    | some sec =>
      obtain ⟨m₁, m₂, rfl⟩ := List.append_of_mem (inside sec rfl)
      obtain ⟨seg', ring', settles, sound'⟩ := sound.memFree (mergeable sec rfl)
      exact ⟨0, seg', m₁ ++ m₂, ring', lookup.bind (settles.map _), sound', List.perm_middle⟩

theorem Sound.exec_unmap {w : World} {name : Option (List UInt8)} (sound : Sound w.seg mid ring)
    (owns : Owns w.live mid) (mergeable : ∀ sec ∈ mapped w.seg name, Mergeable w.seg sec) :
    ∃ w', Settles (fun fuel => w.exec fuel (.unmap name)) w.seg.totalNum.toNat w' ∧ Holds w' := by
  obtain ⟨status, seg', mid', ring', settles, sound', order⟩ := sound.dmmMemUnmap mergeable
  exact ⟨_, (sound.dmmMemLookup name).bind (settles.map _), mid', ring', sound',
    owns.sdiff _ order (List.nodup_cons.mp sound.chain.nodup).2⟩

/-- An admitted call that meets the condition returns and keeps the invariant. -/
theorem Holds.exec {w : World} {op : Op} (holds : Holds w) (admitted : w.Admits op)
    (met : Meets w op) :
    ∃ w', Settles (fun fuel => w.exec fuel op) w.seg.totalNum.toNat w' ∧ Holds w' := by
  obtain ⟨mid, ring, sound, owns⟩ := holds
  cases op with
  | alloc size => exact sound.exec_alloc owns met
  | map size name => exact sound.exec_map owns met
  | unmap name => exact sound.exec_unmap owns met
  | free mem => exact sound.exec_free owns admitted met

/-- Every state of a run whose calls meet the condition satisfies the invariant. -/
theorem Reached.holds {start w : World} (run : Reached Meets start w) (holds : Holds start) :
    Holds w := by
  induction run with
  | refl => exact holds
  | step _ admitted met returned ih =>
    obtain ⟨_, settles, kept⟩ := ih.exec admitted met
    rw [settles.only _ _ returned]
    exact kept

theorem holds_create {memory : Int → Section} {base size : UInt64}
    (created : dmmSegCreate memory base size = some seg) : Holds ⟨seg, ∅⟩ :=
  ⟨[], [seg.first], sound_create created, by simp [Owns]⟩

/-- In every state of a run whose calls meet the condition the sections tile the segment, the
free list is one sorted ring over them that has all their free space, the counters are sums
over the chain, the search for free space ends, and every such call returns. -/
theorem segment_represented_of_meets {memory : Int → Section} {base size : UInt64} {w : World}
    (created : dmmSegCreate memory base size = some seg) (run : Reached Meets ⟨seg, ∅⟩ w) :
    (∃ mid ring, Sound w.seg mid ring ∧
      ((w.seg.first :: mid).map fun s => (w.seg.sec s).usedNum + (w.seg.sec s).freeNum).sum + 1 =
        w.seg.totalNum) ∧
    (∀ num, ∃ pos, searchFree w.seg.totalNum.toNat w.seg num = some pos) ∧
    ∀ op, w.Admits op → Meets w op → ∃ w', w.exec w.seg.totalNum.toNat op = some w' := by
  have holds : Holds w := run.holds (holds_create created)
  obtain ⟨mid, ring, sound, _⟩ := id holds
  refine ⟨⟨mid, ring, sound, sound.chain.tiles⟩, ?_, ?_⟩
  · intro num
    obtain ⟨pos, settles, _⟩ := sound.searchFree_settles num
    exact ⟨pos, settles.enough _ (le_refl _)⟩
  · intro op admitted met
    obtain ⟨w', settles, _⟩ := holds.exec admitted met
    exact ⟨w', settles.enough _ (le_refl _)⟩

/-! ## Runs that can be computed -/

/-- Whether a section can be merged can be computed. -/
instance (seg : Segment) (sec : Int) : Decidable (Mergeable seg sec) :=
  inferInstanceAs (Decidable (_ ∧ _))

/-- Whether a request is countable can be computed. -/
instance (size : UInt64) : Decidable (Countable size) := inferInstanceAs (Decidable (_ < _))

/-- The condition can be computed. -/
instance (w : World) : (op : Op) → Decidable (Meets w op)
  | .alloc size => inferInstanceAs (Decidable (Countable size))
  | .map size name =>
    inferInstanceAs (Decidable (acceptable name → mapped w.seg name = none → Countable size))
  | .unmap name => inferInstanceAs (Decidable (∀ sec ∈ mapped w.seg name, Mergeable w.seg sec))
  | .free mem => inferInstanceAs (Decidable (Mergeable w.seg (mem / 64 - 1)))

/-- What clients may do can be computed. -/
instance (w : World) : (op : Op) → Decidable (w.Admits op)
  | .alloc size => inferInstanceAs (Decidable (size ≤ w.seg.size))
  | .map size _ => inferInstanceAs (Decidable (size ≤ w.seg.size))
  | .unmap _ => inferInstanceAs (Decidable True)
  | .free mem => inferInstanceAs (Decidable (mem ∈ w.live))

/-- The calls of a list, one after the other. -/
def World.execAll (may : World → Op → Prop) [∀ w op, Decidable (may w op)] (fuel : Nat)
    (w : World) : List Op → Option World
  | [] => some w
  | op :: ops =>
    if w.Admits op ∧ may w op then (w.exec fuel op).bind fun w' => w'.execAll may fuel ops
    else none

theorem World.execAll_reached {may : World → Op → Prop} [∀ w op, Decidable (may w op)]
    {fuel : Nat} {start w w' : World} {ops : List Op} (before : Reached may start w)
    (ran : w.execAll may fuel ops = some w') : Reached may start w' := by
  induction ops generalizing w with
  | nil => exact Option.some.inj ran ▸ before
  | cons op ops ih =>
    rw [World.execAll] at ran
    split_ifs at ran with allowed
    obtain ⟨next, returned, rest⟩ := Option.bind_eq_some_iff.mp ran
    exact ih (before.step allowed.1 allowed.2 returned) rest

/-- Calls on a new segment that all return, to a state that passes a check. -/
theorem World.execAll_reaches (may : World → Op → Prop) [∀ w op, Decidable (may w op)]
    (fuel : Nat) (memory : Int → Section) (base size : UInt64) (ops : List Op)
    (check : World → Prop) [DecidablePred check]
    (passes : ((dmmSegCreate memory base size).bind fun seg =>
      (World.mk seg ∅).execAll may fuel ops).any (fun w => decide (check w)) = true) :
    ∃ seg w, dmmSegCreate memory base size = some seg ∧ Reached may ⟨seg, ∅⟩ w ∧ check w := by
  obtain ⟨w, ran, holds⟩ := (Option.any_eq_true _ _).mp passes
  obtain ⟨seg, created, run⟩ := Option.bind_eq_some_iff.mp ran
  exact ⟨seg, w, created, execAll_reached .refl run, of_decide_eq_true holds⟩

/-- Two sections are allocated in a segment of 16 blocks, one of them under a name, and given
back: the address first, then the name. -/
theorem segment_represented_two_sections :
    ∃ seg w, dmmSegCreate (fun _ => default) 4096 1024 = some seg ∧
      Reached Meets ⟨seg, ∅⟩ w ∧ w.live = ∅ ∧
      (∃ mid ring, Sound w.seg mid ring ∧
        ((w.seg.first :: mid).map fun s =>
          (w.seg.sec s).usedNum + (w.seg.sec s).freeNum).sum + 1 = w.seg.totalNum) ∧
      (∀ num, ∃ pos, searchFree w.seg.totalNum.toNat w.seg num = some pos) ∧
      ∀ op, w.Admits op → Meets w op → ∃ w', w.exec w.seg.totalNum.toNat op = some w' := by
  obtain ⟨seg, w, created, run, empty⟩ := World.execAll_reaches Meets 16 (fun _ => default)
    4096 1024 [.alloc 100, .map 64 (some [97, 0]), .free 4928, .unmap (some [97, 0])]
    (fun w => w.live = ∅) (by decide +kernel)
  exact ⟨seg, w, created, run, empty, segment_represented_of_meets created run⟩

/-- An allocation that takes all of a section's free space leaves the section in the free
list; giving the allocation back links the section to itself. The next search that passes it
never ends, although the segment is empty again. -/
theorem exact_fit_breaks_free_list :
    ∃ seg w, dmmSegCreate (fun _ => default) 4096 512 = some seg ∧
      Reached (fun _ _ => True) ⟨seg, ∅⟩ w ∧ w.live = ∅ ∧
      (¬ ∃ ring, FreeRing w.seg ring) ∧ ∀ fuel, dmmMemAlloc fuel w.seg 320 = none := by
  obtain ⟨seg, w, created, run, empty, toFirst, trapped, apart, room, large⟩ :=
    World.execAll_reaches (fun _ _ => True) 8 (fun _ => default) 4096 512
      [.alloc 256, .free 4288]
      (fun w => w.live = ∅ ∧ w.seg.moreSec w.seg.last = w.seg.first ∧
        w.seg.moreSec w.seg.first = w.seg.first ∧ w.seg.first ≠ w.seg.last ∧
        ¬ calcNum 320 > w.seg.totalNum - w.seg.usedNum ∧
        calcNum 320 > (w.seg.sec w.seg.first).freeNum) (by decide +kernel)
  refine ⟨seg, w, created, run, empty, ?_, ?_⟩
  · rintro ⟨ring, free⟩
    have path := free.path
    cases ring with
    | nil => exact apart (toFirst.symm.trans path.1)
    | cons y rest =>
      have start : w.seg.first = y := toFirst.symm.trans path.1
      rw [← start] at path
      exact apart (path.2.2.end_eq trapped).symm
  · intro fuel
    have stuck : searchFree fuel w.seg (calcNum 320) = none := by
      rw [searchFree, toFirst]
      apply seek_trapped trapped
      rw [beq_false_of_ne apart, decide_eq_true large]
      rfl
    rw [dmmMemAlloc, memAlloc, if_neg room, stuck]
    rfl

end Dmm.Mem
