import Dmm.Mem.SegmentRuns

/-!
# Requested and granted sizes

`dmm_mem_alloc` and `dmm_mem_map` on any segment whose physical chain is intact, for any `size_t`.
The section that is made stands in the chain and has the bytes that were asked for (`Fits`)
exactly when the request is refused, or the number of its blocks is an `int` and the section that
gives the space is itself one of the chain. `CALC_NUM` wraps near the end of `size_t` and is cut
to an `int` from 2^37 bytes on, and the free list may lead to a section that has been given back.
-/

namespace Dmm.Mem

open Dmm.Word Dmm.Linked

variable {seg seg' : Segment} {sec pos num : Int} {mid : List Int} {size : UInt64} {fuel : Nat}

/-! ## Which section gives the space -/

/-- The first section of the free list with enough free blocks. -/
def FirstFit (seg : Segment) (num pos : Int) : Prop :=
  pos ≠ seg.last ∧ FirstAt seg.moreSec
    (fun pos => pos == seg.last || !decide (num > (seg.sec pos).freeNum)) (seg.moreSec seg.last) pos

/-- The segment does not refuse the request, and this section gives the space. -/
def Grants (seg : Segment) (size : UInt64) (pos : Int) : Prop :=
  calcNum size ≤ seg.totalNum - seg.usedNum ∧ FirstFit seg (calcNum size) pos

theorem FirstFit.free (fit : FirstFit seg num pos) : num ≤ (seg.sec pos).freeNum := by
  obtain ⟨other, _, _, halts, _⟩ := fit
  simpa [other] using halts

/-- What an allocation does: it is refused, or a section gives the space. -/
theorem memAlloc_cases {out : Option Int} (returned : memAlloc fuel seg size = some (out, seg')) :
    (out = none ∧ seg' = seg ∧ ∀ pos, ¬ Grants seg size pos) ∨
      ∃ pos sec, Grants seg size pos ∧ out = some sec ∧
        allocAt fuel seg pos (calcNum size) size = some (sec, seg') := by
  unfold memAlloc at returned
  dsimp only at returned
  split_ifs at returned with full
  · obtain ⟨rfl, rfl⟩ : none = out ∧ seg = seg' := by simpa using returned
    exact .inl ⟨rfl, rfl, fun pos grants => absurd grants.1 (by omega)⟩
  · obtain ⟨pos, searched, rest⟩ := Option.bind_eq_some_iff.mp returned
    have first := seek_firstAt searched
    split_ifs at rest with none
    · obtain ⟨rfl, rfl⟩ : Option.none = out ∧ seg = seg' := by simpa using rest
      refine .inl ⟨rfl, rfl, fun other grants => grants.2.1 ?_⟩
      rw [← none]
      exact grants.2.2.unique first
    · obtain ⟨⟨sec, after⟩, cut, same⟩ := Option.map_eq_some_iff.mp rest
      obtain ⟨rfl, rfl⟩ : some sec = out ∧ after = seg' := by simpa using same
      exact .inr ⟨pos, sec, ⟨by omega, none, first⟩, rfl, cut⟩

/-! ## The section that is made -/

theorem moveBack_relinked (moved : moveBack fuel seg pos = some seg') : Relinked seg seg' := by
  unfold moveBack at moved
  obtain ⟨less, _, rfl⟩ := Option.map_eq_some_iff.mp moved
  refine (Relinked.unlink seg pos).trans (.trans ?_ (Relinked.insert ..))
  exact Relinked.modify _ _ _ fun _ => rfl

/-- The header that a cut writes, whatever the section that gives the space. -/
theorem carve_header (seg : Segment) (pos num : Int) (size : UInt64) :
    ((carve seg pos num size).1.sec (carve seg pos num size).2).usedNum = num ∧
      (carve seg pos num size).1.prevSec (carve seg pos num size).2 = pos := by
  unfold carve
  dsimp only
  constructor
  · refine (Segment.field_modify Section.usedNum ?_).trans ?_
    · exact fun _ => rfl
    · rw [Segment.sec_modify, if_pos rfl]
  · refine (congrArg _ (Segment.field_modify Section.prevRel ?_)).trans ?_
    · exact fun _ => rfl
    · rw [Segment.sec_modify, if_pos rfl]
      exact add_sub_cancel _ _

theorem allocAt_eq (made : allocAt fuel seg pos num size = some (sec, seg')) :
    sec = (carve seg pos num size).2 ∧ ∃ moved, Relinked (carve seg pos num size).1 moved ∧
      seg' = moved.adjust (moved.usedSize + size) (moved.usedNum + num) (moved.secNum + 1) := by
  unfold allocAt at made
  obtain ⟨moved, ran, same⟩ := Option.map_eq_some_iff.mp made
  obtain ⟨rfl, rfl⟩ := Prod.mk.inj same
  exact ⟨rfl, moved, moveBack_relinked ran, rfl⟩

/-- The new section has the blocks that were counted, and is behind the one that gave them. -/
theorem allocAt_fields (made : allocAt fuel seg pos num size = some (sec, seg')) :
    (seg'.sec sec).usedNum = num ∧ seg'.prevSec sec = pos ∧ seg'.first = seg.first := by
  obtain ⟨rfl, moved, relinked, rfl⟩ := allocAt_eq made
  obtain ⟨used, prev⟩ := carve_header seg pos num size
  refine ⟨(relinked.usedNum _).trans used, Eq.trans ?_ prev, relinked.first⟩
  exact congrArg _ (relinked.field Section.prevRel (fun _ => rfl) _)

/-- The new section stands in the chain when the one that gives the space does. -/
theorem allocAt_chain (chain : Chain seg mid) (member : pos ∈ seg.first :: mid) (large : 2 ≤ num)
    (free : num ≤ (seg.sec pos).freeNum)
    (made : allocAt fuel seg pos num size = some (sec, seg')) :
    ∃ m₁ m₂, mid = m₁ ++ m₂ ∧ Chain seg' (m₁ ++ sec :: m₂) := by
  obtain ⟨m₁, m₂, rfl, here⟩ := exists_cut member
  obtain ⟨_, after, cut⟩ := chain.cut size here large free
  obtain ⟨rfl, moved, relinked, rfl⟩ := allocAt_eq made
  rw [carve_eq after (by omega)] at relinked ⊢
  refine ⟨m₁, m₂, rfl, ?_⟩
  exact (relinked.chain cut).congr rfl rfl rfl (fun _ => rfl) (fun _ => rfl) (fun _ => rfl) rfl

/-! ## The size of the section -/

/-- What a request owes: without an address the segment is as it was; with one, the section it
belongs to has been put into the chain and has the bytes asked for behind its header. Sections of
a chain end where the next one begins. -/
def Fits (seg : Segment) (mid : List Int) (size : UInt64) : Option Int → Segment → Prop
  | none, seg' => seg' = seg
  | some mem, seg' => ∃ sec m₁ m₂, mem = address sec ∧ mid = m₁ ++ m₂ ∧
      Chain seg' (m₁ ++ sec :: m₂) ∧ (size.toNat : Int) ≤ 64 * ((seg'.sec sec).usedNum - 1)

/-- What a request needs: if it is granted, the number of its blocks is an `int` and the section
that gives the space is one of the chain. -/
def Grantable (seg : Segment) (mid : List Int) (size : UInt64) : Prop :=
  ∀ pos, Grants seg size pos → Countable size ∧ pos ∈ seg.first :: mid

theorem grantable_iff (grants : Grants seg size pos) :
    Grantable seg mid size ↔ Countable size ∧ pos ∈ seg.first :: mid := by
  constructor
  · exact fun grantable => grantable pos grants
  · intro needed other granted
    rwa [granted.2.2.unique grants.2.2]

/-- The section before a section of the chain is one of the chain. -/
theorem Chain.prev_mem {m₁ m₂ : List Int} (chain : Chain seg' (m₁ ++ sec :: m₂)) :
    seg'.prevSec sec ∈ seg'.first :: (m₁ ++ m₂) := by
  rw [chain.path.around.1, ← List.cons_append]
  exact List.mem_append_left m₂ (getLastD_mem m₁ seg'.first)

theorem countable_of_le (holds : (size.toNat : Int) ≤ 64 * (calcNum size - 1)) :
    Countable size := by
  have bound : calcNum size < 2 ^ 31 := by
    unfold calcNum
    split_ifs
    · exact int32_lt _
    · decide
  unfold Countable
  omega

/-- A section that is made fits exactly when the request is countable and the section that gives
the space is one of the chain. -/
theorem allocAt_fits_iff (chain : Chain seg mid) (fit : FirstFit seg (calcNum size) pos)
    (made : allocAt fuel seg pos (calcNum size) size = some (sec, seg')) (name : List UInt8) :
    (Fits seg mid size (some (address sec)) seg' ↔ Countable size ∧ pos ∈ seg.first :: mid) ∧
      (Fits seg mid size (some (address sec)) (seg'.modify sec fun s => { s with name := name }) ↔
        Countable size ∧ pos ∈ seg.first :: mid) := by
  obtain ⟨used, prev, first⟩ := allocAt_fields made
  -- the name is written afterwards: what counts is the header and that the chain survives
  have fits_iff (after : Segment) (used : (after.sec sec).usedNum = calcNum size)
      (prev : after.prevSec sec = pos) (first : after.first = seg.first)
      (keeps : ∀ l, sec ∈ l → Chain seg' l → Chain after l) :
      Fits seg mid size (some (address sec)) after ↔ Countable size ∧ pos ∈ seg.first :: mid := by
    constructor
    · rintro ⟨sec', m₁, m₂, same, rfl, chained, holds⟩
      obtain rfl := address_inj.mp same
      have member := chained.prev_mem
      rw [prev, first] at member
      rw [used] at holds
      exact ⟨countable_of_le holds, member⟩
    · rintro ⟨countable, member⟩
      obtain ⟨large, holds⟩ := calcNum_bounds countable
      obtain ⟨m₁, m₂, shape, chained⟩ := allocAt_chain chain member large fit.free made
      refine ⟨sec, m₁, m₂, rfl, shape, keeps _ (by simp) chained, ?_⟩
      rw [used]
      exact holds
  constructor
  · exact fits_iff seg' used prev first fun _ _ chained => chained
  · refine fits_iff _ ?_ ?_ first fun _ member chained => chained.rename member name
    · rw [Segment.sec_modify, if_pos rfl]
      exact used
    · rw [Segment.prevSec, Segment.sec_modify, if_pos rfl]
      exact prev

theorem dmmMemAlloc_fits_iff {out : Option Int} (chain : Chain seg mid)
    (returned : dmmMemAlloc fuel seg size = some (out, seg')) :
    Fits seg mid size out seg' ↔ Grantable seg mid size := by
  obtain ⟨⟨sec, after⟩, ran, same⟩ := Option.map_eq_some_iff.mp returned
  obtain ⟨rfl, rfl⟩ := Prod.mk.inj same
  rcases memAlloc_cases ran with ⟨rfl, rfl, refused⟩ | ⟨pos, new, grants, rfl, made⟩
  · exact iff_of_true rfl fun pos grants => absurd grants (refused pos)
  · exact (allocAt_fits_iff chain grants.2 made []).1.trans (grantable_iff grants).symm

/-- Whether a mapping fits. -/
theorem dmmMemMap_fits_iff {out : Option Int} {name : Option (List UInt8)} (chain : Chain seg mid)
    (returned : dmmMemMap fuel seg size name = some (out, seg')) :
    Fits seg mid size out seg' ↔
      (acceptable name → mapped seg name = none → Grantable seg mid size) := by
  unfold dmmMemMap at returned
  unfold acceptable mapped
  cases taken : given name with
  | none =>
    obtain ⟨rfl, rfl⟩ : none = out ∧ seg = seg' := by simpa [taken] using returned
    exact iff_of_true rfl (by simp)
  | some bytes =>
    simp only [taken] at returned
    split_ifs at returned with long
    · obtain ⟨rfl, rfl⟩ : none = out ∧ seg = seg' := by simpa using returned
      exact iff_of_true rfl (by simp [long])
    · obtain ⟨found, settles, -⟩ := chain.memLookup bytes
      obtain ⟨result, looked, rest⟩ := Option.bind_eq_some_iff.mp returned
      obtain rfl := settles.only _ _ looked
      have short : (some bytes).any (fun name => decide ((cString name).length < dmmMemNameSize)) =
          true := by simpa using long
      simp only [short, Option.bind_some, settles.enough _ (le_refl _), Option.join_some,
        true_imp_iff]
      cases result with
      | some used =>
        obtain ⟨rfl, rfl⟩ : none = out ∧ seg = seg' := by simpa using rest
        exact iff_of_true rfl nofun
      | none =>
        obtain ⟨⟨sec, after⟩, ran, same⟩ := Option.map_eq_some_iff.mp rest
        rcases memAlloc_cases ran with ⟨rfl, rfl, refused⟩ | ⟨pos, new, grants, rfl, made⟩
        · obtain ⟨rfl, rfl⟩ := Prod.mk.inj same
          exact iff_of_true rfl fun _ pos grants => absurd grants (refused pos)
        · obtain ⟨rfl, rfl⟩ := Prod.mk.inj same
          have fits := (allocAt_fits_iff chain grants.2 made (strncpy bytes dmmMemNameSize)).2
          rw [fits, grantable_iff grants]
          exact ⟨fun needed _ => needed, fun needed => needed rfl⟩

/-- In the states of runs that meet the condition of the representation invariant only the size
matters. -/
theorem Sound.grantable {ring : List Int} (sound : Sound seg mid ring)
    (countable : Countable size) :
    Grantable seg mid size := by
  intro pos grants
  obtain ⟨found, settles, inside⟩ := sound.searchFree_settles (calcNum size)
  have same := grants.2.2.unique (seek_firstAt (settles.enough _ (le_refl _)))
  rw [same]
  refine ⟨countable, sound.list.within found (inside ?_).1⟩
  rw [← same]
  exact grants.2.1

/-- Whether requests fit, for every segment whose chain is intact and every size: an allocation
that returns fits exactly when it is `Grantable`, and so does a mapping whose name is taken and
not yet in use; any other mapping leaves the segment as it was. -/
theorem request_fits_iff (chain : Chain seg mid) (size : UInt64) :
    (∀ fuel out seg', dmmMemAlloc fuel seg size = some (out, seg') →
      (Fits seg mid size out seg' ↔ Grantable seg mid size)) ∧
    ∀ name fuel out seg', dmmMemMap fuel seg size name = some (out, seg') →
      (Fits seg mid size out seg' ↔
        (acceptable name → mapped seg name = none → Grantable seg mid size)) :=
  ⟨fun _ _ _ returned => dmmMemAlloc_fits_iff chain returned,
    fun _ _ _ _ returned => dmmMemMap_fits_iff chain returned⟩

/-- A request of 100 bytes to a new segment of 16 blocks. -/
theorem request_fits_hundred :
    ∃ seg seg', dmmSegCreate (fun _ => default) 4096 1024 = some seg ∧
      dmmMemAlloc 16 seg 100 = some (some 4928, seg') ∧ Fits seg [] 100 (some 4928) seg' := by
  have returns : ((dmmSegCreate (fun _ => default) 4096 1024).bind fun seg =>
      dmmMemAlloc 16 seg 100).any (fun result => result.1 = some 4928) = true := by
    decide +kernel
  obtain ⟨⟨out, seg'⟩, ran, address⟩ := (Option.any_eq_true _ _).mp returns
  obtain ⟨seg, created, allocated⟩ := Option.bind_eq_some_iff.mp ran
  obtain rfl : out = some 4928 := of_decide_eq_true address
  have sound := sound_create created
  refine ⟨seg, seg', created, allocated, ?_⟩
  exact ((request_fits_iff sound.chain 100).1 16 _ _ allocated).mpr (sound.grantable (by decide))

/-- Whether the chain is intact can be computed. -/
instance (seg : Segment) (mid : List Int) : Decidable (Chain seg mid) :=
  decidable_of_iff (Walk seg.nextSec seg.prevSec seg.first mid seg.last ∧
    (seg.sec seg.first).prevRel = 0 ∧ (∀ s ∈ seg.first :: mid, 2 ≤ (seg.sec s).usedNum) ∧
    (∀ s ∈ seg.first :: mid, 0 ≤ (seg.sec s).freeNum) ∧ (seg.sec seg.last).usedNum = 0 ∧
    (seg.sec seg.last).freeNum = 0 ∧ (seg.sec seg.last).name.headD 0 = 0 ∧
    seg.last = seg.first + (seg.totalNum - 1))
    ⟨fun ⟨path, firstPrev, used, free, lastUsed, lastFree, lastName, span⟩ =>
      ⟨path, firstPrev, used, free, lastUsed, lastFree, lastName, span⟩,
    fun chain => ⟨chain.path, chain.first_prev, chain.used, chain.free, chain.last_used,
      chain.last_free, chain.last_name, chain.span⟩⟩

/-- A new segment grants a request for all but one of the addressable bytes, with a section that
has none. And where exact fits have left a section in the free list that was then given back, a
request for 192 bytes gets an address with the header of another section inside them. -/
theorem request_does_not_fit :
    (∃ seg mem seg', dmmSegCreate (fun _ => default) 4096 1024 = some seg ∧ Chain seg [] ∧
      dmmMemAlloc 16 seg 0xffffffffffffffff = some (some mem, seg') ∧
      ¬ Fits seg [] 0xffffffffffffffff (some mem) seg') ∧
    ∃ seg w seg', dmmSegCreate (fun _ => default) 4096 1024 = some seg ∧
      Reached (fun _ _ => True) ⟨seg, ∅⟩ w ∧ Chain w.seg [74] ∧
      dmmMemAlloc 16 w.seg 192 = some (some 4672, seg') ∧ 4672 ≤ 64 * 74 ∧ 64 * 74 < 4672 + 192 ∧
      ¬ Fits w.seg [74] 192 (some 4672) seg' := by
  constructor
  · have returns : ((dmmSegCreate (fun _ => default) 4096 1024).bind fun seg =>
        dmmMemAlloc 16 seg 0xffffffffffffffff).any (fun result => result.1.isSome) = true := by
      decide +kernel
    obtain ⟨⟨out, seg'⟩, ran, address⟩ := (Option.any_eq_true _ _).mp returns
    obtain ⟨seg, created, allocated⟩ := Option.bind_eq_some_iff.mp ran
    obtain ⟨mem, rfl⟩ := Option.isSome_iff_exists.mp address
    have chain := (sound_create created).chain
    refine ⟨seg, mem, seg', created, chain, allocated, fun fits => ?_⟩
    have grantable := (dmmMemAlloc_fits_iff chain allocated).mp fits
    obtain ⟨⟨sec, after⟩, made, same⟩ := Option.map_eq_some_iff.mp allocated
    rcases memAlloc_cases made with ⟨rfl, -, -⟩ | ⟨pos, -, grants, -, -⟩
    · cases same
    · exact absurd (grantable pos grants).1 (by decide)
  · obtain ⟨seg, w, created, run, chain, checked⟩ :=
      World.execAll_reaches (fun _ _ => True) 16 (fun _ => default) 4096 1024
        [.alloc 128, .alloc 192, .alloc 64, .free 4672, .alloc 192, .free 4672, .free 4544,
          .free 4928, .alloc 256]
        (fun w => Chain w.seg [74] ∧ (dmmMemAlloc 16 w.seg 192).any (fun result =>
          result.1 = some 4672 ∧ result.2.prevSec 72 = 70 ∧ result.2.first = 64) = true)
        (by decide +kernel)
    obtain ⟨⟨out, seg'⟩, allocated, facts⟩ := (Option.any_eq_true _ _).mp checked
    obtain ⟨rfl, prev, first⟩ := of_decide_eq_true facts
    refine ⟨seg, w, seg', created, run, chain, allocated, by decide, by decide, ?_⟩
    rintro ⟨sec, m₁, m₂, same, shape, chained, -⟩
    obtain rfl : 72 = sec := address_inj.mp same
    have member := chained.prev_mem
    rw [prev, first, ← shape] at member
    exact absurd member (by decide)

end Dmm.Mem
