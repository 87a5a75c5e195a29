import Dmm.Mem.SegmentChain

/-!
# The representation invariant of a segment

What every operation of `dmm_segment.c` relies on and, as long as a section without free
space is not in the free list when it is given back or is given space, keeps: the physical
chain, the free list in order over the sections of the chain, and the counters.
-/

namespace Dmm.Mem

open Dmm.Word Dmm.Linked

variable {seg seg' : Segment} {sec pos num : Int} {mid ring l l' m₁ m₂ : List Int} {size : UInt64}

/-- The counters of the segment are sums over its sections. -/
structure Counts (seg : Segment) (sections : List Int) : Prop where
  secNum : seg.secNum = sections.length
  usedNum : seg.usedNum = (sections.map fun s => (seg.sec s).usedNum).sum
  usedSize : seg.usedSize.toNat = (sections.map fun s => (seg.sec s).reqSize.toNat).sum
  fits : ∀ s ∈ sections, ((seg.sec s).reqSize.toNat : Int) ≤ 64 * (seg.sec s).usedNum

/-- The free list, over the sections that may have free space. -/
structure FreeList (seg : Segment) (sections ring : List Int) : Prop extends FreeRing seg ring where
  sorted : Sorted seg ring
  within : ∀ s ∈ ring, s ∈ sections
  covers : ∀ s ∈ sections, 0 < (seg.sec s).freeNum → s ∈ ring

/-- The representation invariant, for these sections between the first and the last and this
free list. -/
structure Sound (seg : Segment) (mid ring : List Int) : Prop where
  chain : Chain seg mid
  list : FreeList seg (seg.first :: mid) ring
  counts : Counts seg (seg.first :: (mid ++ [seg.last]))
  small : seg.totalNum < 2 ^ 31

namespace Counts

theorem usedSize_le (counts : Counts seg l) : (seg.usedSize.toNat : Int) ≤ 64 * seg.usedNum := by
  rw [counts.usedSize, counts.usedNum]
  have fits := counts.fits
  clear counts
  induction l with
  | nil => simp
  | cons y l ih =>
    have here := fits y (by simp)
    have rest := ih fun s member => fits s (List.mem_cons_of_mem y member)
    simp only [List.map_cons, List.sum_cons, Nat.cast_add] at rest ⊢
    omega

/-- The same sections in another order, the same sizes. -/
theorem congr (counts : Counts seg l) (order : List.Perm l' l)
    (secNum : seg'.secNum = seg.secNum) (usedNum : seg'.usedNum = seg.usedNum)
    (usedSize : seg'.usedSize = seg.usedSize)
    (used : ∀ s ∈ l, (seg'.sec s).usedNum = (seg.sec s).usedNum)
    (req : ∀ s ∈ l, (seg'.sec s).reqSize = (seg.sec s).reqSize) : Counts seg' l' := by
  constructor
  · rw [secNum, order.length_eq]
    exact counts.secNum
  · rw [usedNum, (order.map _).sum_eq, List.map_congr_left used]
    exact counts.usedNum
  · rw [usedSize, (order.map _).sum_eq,
      List.map_congr_left fun s member => congrArg UInt64.toNat (req s member)]
    exact counts.usedSize
  · intro s member
    have inside := order.mem_iff.mp member
    rw [used s inside, req s inside]
    exact counts.fits s inside

theorem cons (sec : Int) (counts : Counts seg l)
    (size : (seg.sec sec).reqSize.toNat ≤ 64 * (seg.sec sec).usedNum)
    (small : seg.usedNum + (seg.sec sec).usedNum < 2 ^ 31) :
    Counts (seg.adjust (seg.usedSize + (seg.sec sec).reqSize)
      (seg.usedNum + (seg.sec sec).usedNum) (seg.secNum + 1)) (sec :: l) := by
  have total := counts.usedSize_le
  have fits : seg.usedSize.toNat + (seg.sec sec).reqSize.toNat < 2 ^ 64 := by omega
  constructor
  · exact congrArg (· + 1) counts.secNum
  · refine (add_comm _ _).trans ?_
    exact congrArg ((seg.sec sec).usedNum + ·) counts.usedNum
  · refine ((UInt64.toNat_add _ _).trans (Nat.mod_eq_of_lt fits)).trans ?_
    refine (add_comm _ _).trans ?_
    exact congrArg ((seg.sec sec).reqSize.toNat + ·) counts.usedSize
  · exact List.forall_mem_cons.mpr ⟨size, counts.fits⟩

theorem tail (counts : Counts seg (sec :: l)) :
    Counts (seg.adjust (seg.usedSize - (seg.sec sec).reqSize)
      (seg.usedNum - (seg.sec sec).usedNum) (seg.secNum - 1)) l := by
  have count := counts.secNum
  have used := counts.usedNum
  have bytes := counts.usedSize
  simp only [List.length_cons, List.map_cons, List.sum_cons, Nat.cast_add, Nat.cast_one]
    at count used bytes
  constructor
  · exact sub_eq_of_eq_add count
  · exact sub_eq_of_eq_add' used
  · have least : (seg.sec sec).reqSize ≤ seg.usedSize := UInt64.le_iff_toNat_le.mpr (by omega)
    exact (UInt64.toNat_sub_of_le _ _ least).trans (Nat.sub_eq_of_eq_add' bytes)
  · exact (List.forall_mem_cons.mp counts.fits).2

end Counts

namespace Sound

variable (sound : Sound seg mid ring)

include sound

theorem ring_short : ring.length + 1 ≤ seg.totalNum.toNat := by
  have distinct := (List.nodup_cons.mp sound.list.nodup).2
  have fewer := (List.subperm_of_subset distinct sound.list.within).length_le
  have short := sound.chain.length_lt
  rw [List.length_cons] at fewer
  omega

/-- A section is in the free list if it has free space and, where the links of a section
without free space are reset, only then. -/
theorem linked_iff (member : sec ∈ seg.first :: mid)
    (reset : (seg.sec sec).freeNum = 0 → (seg.sec sec).moreRel = 0) :
    sec ∈ ring ↔ (seg.sec sec).freeNum ≠ 0 := by
  constructor
  · intro linked full
    exact sound.list.moreRel_ne_zero linked (reset full)
  · intro space
    have free := sound.chain.free sec member
    exact sound.list.covers sec member (by omega)

/-- The search of `mem_alloc` ends, at a section with enough free space or at the head. -/
theorem searchFree_settles (num : Int) :
    ∃ pos, Settles (fun fuel => searchFree fuel seg num) seg.totalNum.toNat pos ∧
      (pos ≠ seg.last → pos ∈ ring ∧ num ≤ (seg.sec pos).freeNum) := by
  obtain ⟨r₁, r₂, rfl, _, found, settles⟩ := sound.list.path.seek_next
    (fun pos => pos == seg.last || !decide (num > (seg.sec pos).freeNum)) (by simp)
  rw [← sound.list.path.next_start] at settles
  refine ⟨_, settles.mono sound.ring_short, ?_⟩
  intro other
  constructor
  · have inside := headD_mem r₂ seg.last
    rw [List.mem_append, List.mem_singleton] at inside
    exact List.mem_append_right r₁ (inside.resolve_right other)
  · rw [beq_false_of_ne other, Bool.false_or, Bool.not_eq_true', decide_eq_false_iff_not,
      not_lt] at found
    exact found

end Sound

/-! ## Allocating -/

theorem FreeList.perm (list : FreeList seg l ring) (order : List.Perm l' l) :
    FreeList seg l' ring where
  toFreeRing := list.toFreeRing
  sorted := list.sorted
  within s member := order.mem_iff.mpr (list.within s member)
  covers s member := list.covers s (order.mem_iff.mp member)

theorem FreeRing.cut (free : FreeRing seg ring)
    (fresh : seg.nextSec pos - num ∉ seg.last :: ring) : FreeRing (cut seg pos num size) ring := by
  have head : (Mem.cut seg pos num size).last = seg.last := rfl
  apply free.congr head
  · intro c member
    have old : c ≠ seg.nextSec pos - num := ne_of_mem_of_not_mem member fresh
    rw [Segment.moreSec, cut_old Section.moreRel (fun _ _ _ => rfl) old, Segment.moreSec]
  · intro c member
    have old : c ≠ seg.nextSec pos - num := ne_of_mem_of_not_mem member fresh
    rw [Segment.lessSec, cut_old Section.lessRel (fun _ _ _ => rfl) old, Segment.lessSec]

theorem Sound.adjusted {usedSize : UInt64} {usedNum secNum : Int} (chain : Chain seg mid)
    (list : FreeList seg (seg.first :: mid) ring)
    (counts : Counts (seg.adjust usedSize usedNum secNum) (seg.first :: (mid ++ [seg.last])))
    (small : seg.totalNum < 2 ^ 31) : Sound (seg.adjust usedSize usedNum secNum) mid ring where
  chain := chain.congr rfl rfl rfl (fun _ => rfl) (fun _ => rfl) (fun _ => rfl) rfl
  list := ⟨⟨list.path, list.nodup⟩, list.sorted, list.within, list.covers⟩
  counts := counts
  small := small

/-- A cut and the move that follows it keep the free list; the new section stays out of it. -/
theorem FreeList.cut (size : UInt64) {sections : List Int} (list : FreeList seg sections ring)
    (linked : pos ∈ ring) (positive : 0 ≤ num) (after : pos < seg.nextSec pos - num)
    (fresh : seg.nextSec pos - num ∉ seg.last :: sections) :
    ∃ seg' ring', Settles (fun fuel => moveBack fuel (cut seg pos num size) pos)
        (ring.length + 1) seg' ∧ Relinked (cut seg pos num size) seg' ∧
      FreeList seg' ((seg.nextSec pos - num) :: sections) ring' := by
  have old : ∀ s ∈ sections, s ≠ seg.nextSec pos - num := by
    intro s member
    exact ne_of_mem_of_not_mem (List.mem_cons_of_mem _ member) fresh
  have ringed : FreeRing (Mem.cut seg pos num size) ring := by
    apply list.toFreeRing.cut
    intro member
    rcases List.mem_cons.mp member with same | inside
    · exact fresh (List.mem_cons.mpr (.inl same))
    · exact old _ (list.within _ inside) rfl
  obtain ⟨r₁, r₂, rfl⟩ := List.append_of_mem linked
  have others : ∀ s ∈ r₁ ++ r₂,
      ((Mem.cut seg pos num size).sec s).freeNum = (seg.sec s).freeNum := by
    intro s member
    have inRing : s ∈ r₁ ++ pos :: r₂ :=
      List.perm_middle.mem_iff.mpr (List.mem_cons_of_mem _ member)
    have notPos : s ≠ pos :=
      ne_of_mem_of_not_mem (List.mem_cons_of_mem _ member) ringed.not_mem_around
    rw [cut_freeNum (old s (list.within s inRing)), if_neg notPos, sub_zero]
  have sorted : Sorted (Mem.cut seg pos num size) (r₁ ++ r₂) :=
    Sorted.congr (List.Pairwise.sublist (by simp) list.sorted) others
  obtain ⟨seg', ring', settles, relinked, ringed', sorted', order⟩ := ringed.moveBack sorted (by
    intro y member
    have ordered := List.rel_of_pairwise_cons (List.pairwise_append.mp list.sorted).2.1 member
    rw [others y (List.mem_append_right r₁ member),
      cut_freeNum (old pos (list.within pos linked)), if_pos rfl]
    omega)
  refine ⟨seg', ring', settles.mono (by simp), relinked, ringed', sorted', ?_, ?_⟩
  · intro s member
    exact List.mem_cons_of_mem _ (list.within s (order.mem_iff.mp member))
  · intro s member space
    rw [relinked.freeNum] at space
    rcases List.mem_cons.mp member with rfl | inside
    · rw [cut_new after] at space
      exact absurd space (lt_irrefl 0)
    · rw [cut_freeNum (old s inside)] at space
      apply order.mem_iff.mpr
      apply list.covers s inside
      split_ifs at space <;> omega

/-- Allocating at a section with enough free space. -/
theorem Sound.allocAt (sound : Sound seg mid ring) (linked : pos ∈ ring) (large : 2 ≤ num)
    (fits : num ≤ (seg.sec pos).freeNum) (bytes : (size.toNat : Int) ≤ 64 * num)
    (room : seg.usedNum + num ≤ seg.totalNum) :
    ∃ sec seg' mid' ring',
      Settles (fun fuel => allocAt fuel seg pos num size) seg.totalNum.toNat (sec, seg') ∧
      Sound seg' mid' ring' ∧ List.Perm mid' (sec :: mid) := by
  obtain ⟨m₁, m₂, rfl, here⟩ := exists_cut (sound.list.within pos linked)
  obtain ⟨fresh, after, chain⟩ := sound.chain.cut size here large fits
  have carved : carve seg pos num size = _ := carve_eq after (by omega)
  have outside : seg.nextSec pos - num ∉ seg.last :: seg.first :: (m₁ ++ m₂) := by
    rw [← List.cons_append] at fresh
    exact fun member => fresh ((List.perm_append_singleton _ _).mem_iff.mpr member)
  obtain ⟨seg', ring', settles, relinked, list⟩ :=
    sound.list.cut size linked (by omega) after outside
  set new := seg.nextSec pos - num with isNew
  have reqSize : (seg'.sec new).reqSize = size := by
    rw [relinked.field Section.reqSize fun _ => rfl, cut_new after]
  have usedNum : (seg'.sec new).usedNum = num := by
    rw [relinked.usedNum, cut_new after]
  have sameUsed : seg'.usedNum = seg.usedNum := by
    rw [relinked.fields]
    rfl
  have counts : Counts seg' (seg.first :: (m₁ ++ m₂ ++ [seg.last])) := by
    apply sound.counts.congr (List.Perm.refl _) _ sameUsed
    · rw [relinked.fields]
      rfl
    · intro s member
      have old := ne_of_mem_of_not_mem member fresh
      rw [relinked.usedNum, cut_old Section.usedNum (fun _ _ _ => rfl) old]
    · intro s member
      have old := ne_of_mem_of_not_mem member fresh
      rw [relinked.field Section.reqSize fun _ => rfl,
        cut_old Section.reqSize (fun _ _ _ => rfl) old]
    · rw [relinked.fields]
      rfl
  have small := sound.small
  have more := counts.cons new (by rw [reqSize, usedNum]; exact bytes)
    (by rw [usedNum, sameUsed]; omega)
  rw [reqSize, usedNum] at more
  refine ⟨new, seg'.adjust (seg'.usedSize + size) (seg'.usedNum + num) (seg'.secNum + 1),
    m₁ ++ new :: m₂, ring', ?_, ?_, List.perm_middle⟩
  · simp only [Mem.allocAt, carved]
    exact (settles.mono sound.ring_short).map _
  · have moved : List.Perm (seg.first :: (m₁ ++ new :: m₂)) (new :: seg.first :: (m₁ ++ m₂)) :=
      (List.perm_middle.cons _).trans (List.Perm.swap _ _ _)
    apply Sound.adjusted (relinked.chain chain)
    · rw [relinked.first]
      exact list.perm moved
    · rw [relinked.first, relinked.last]
      exact more.congr (moved.append_right [seg.last]) rfl rfl rfl (fun _ _ => rfl)
        fun _ _ => rfl
    · rw [relinked.fields]
      exact small

/-- The size of a request in blocks is an `int`. -/
def Countable (size : UInt64) : Prop := (size.toNat + 63) / 64 + 1 < 2 ^ 31

/-- A request that is countable is one header and the blocks for its bytes. -/
theorem calcNum_eq (countable : Countable size) (some : size ≠ 0) :
    calcNum size = (size.toNat + 63) / 64 + 1 := by
  unfold Countable at countable
  have sum : (size + (sectionSize - 1)).toNat = size.toNat + 63 :=
    (UInt64.toNat_add _ _).trans (Nat.mod_eq_of_lt (by
      change size.toNat + 63 < 2 ^ 64
      omega))
  have quotient : ((size + (sectionSize - 1)) / sectionSize).toNat = (size.toNat + 63) / 64 := by
    rw [UInt64.toNat_div, sum]
    rfl
  have blocks : ((size + (sectionSize - 1)) / sectionSize + 1).toNat =
      (size.toNat + 63) / 64 + 1 := by
    rw [UInt64.toNat_add, quotient]
    apply Nat.mod_eq_of_lt
    change (size.toNat + 63) / 64 + 1 < 2 ^ 64
    omega
  rw [calcNum, if_pos some, blocks, int32_of_range (by omega) (by omega)]
  omega

theorem calcNum_bounds (countable : Countable size) :
    2 ≤ calcNum size ∧ (size.toNat : Int) ≤ 64 * (calcNum size - 1) := by
  by_cases zero : size = 0
  · subst zero
    decide
  · rw [calcNum_eq countable zero]
    have positive : 0 < size.toNat := by
      apply Nat.pos_of_ne_zero
      intro none
      exact zero (UInt64.toNat_inj.mp none)
    omega

/-- `mem_alloc` keeps the invariant; what it returns is a new section. -/
theorem Sound.memAlloc (sound : Sound seg mid ring) (countable : Countable size) :
    ∃ sec seg' mid' ring',
      Settles (fun fuel => memAlloc fuel seg size) seg.totalNum.toNat (sec, seg') ∧
      Sound seg' mid' ring' ∧ List.Perm mid' (sec.toList ++ mid) := by
  obtain ⟨large, bytes⟩ := calcNum_bounds countable
  unfold Mem.memAlloc
  by_cases full : calcNum size > seg.totalNum - seg.usedNum
  · simp only [if_pos full]
    exact ⟨none, seg, mid, ring, .now _ _, sound, List.Perm.refl _⟩
  · simp only [if_neg full]
    obtain ⟨pos, settles, found⟩ := sound.searchFree_settles (calcNum size)
    by_cases none : pos = seg.last
    · refine ⟨Option.none, seg, mid, ring, settles.bind ?_, sound, List.Perm.refl _⟩
      simp only [if_pos none]
      exact .now _ _
    · obtain ⟨linked, fits⟩ := found none
      have whole : (size.toNat : Int) ≤ 64 * calcNum size := by omega
      obtain ⟨sec, seg', mid', ring', returns, sound', order⟩ :=
        sound.allocAt linked large fits whole (by omega)
      refine ⟨some sec, seg', mid', ring', settles.bind ?_, sound', order⟩
      simp only [if_neg none]
      exact returns.map _

/-! ## Giving back -/

/-- Neither the section given back nor the one that gets its space is in the free list
without free space. -/
def Mergeable (seg : Segment) (sec : Int) : Prop :=
  ((seg.sec sec).freeNum = 0 → (seg.sec sec).moreRel = 0) ∧
    ((seg.sec (seg.prevSec sec)).freeNum = 0 → (seg.sec (seg.prevSec sec)).moreRel = 0)

/-- Giving a section back keeps the free list, without the section. -/
theorem FreeList.giveBack {sections : List Int} (list : FreeList seg sections ring)
    (linked : sec ∈ ring ↔ (seg.sec sec).freeNum ≠ 0)
    (linkedPrev : seg.prevSec sec ∈ ring ↔ (seg.sec (seg.prevSec sec)).freeNum ≠ 0)
    (apart : seg.prevSec sec ≠ sec) (inner : seg.prevSec sec ≠ seg.last)
    (positive : 0 ≤ (seg.sec sec).usedNum + (seg.sec sec).freeNum) :
    ∃ seg' ring', Settles (fun fuel => giveBack fuel seg sec) (ring.length + 1) seg' ∧
      Relinked (merge seg sec) seg' ∧ FreeRing seg' ring' ∧ Sorted seg' ring' ∧
      List.Perm ring' (seg.prevSec sec :: (ring.erase sec).erase (seg.prevSec sec)) := by
  set prev := seg.prevSec sec with isPrev
  let next := seg.nextSec sec
  let num := (seg.sec sec).usedNum + (seg.sec sec).freeNum
  let turned := seg.modify next fun s => { s with prevRel := prev - next }
  let without := detach turned sec
  let bare := detach without prev
  let filled := bare.modify prev fun s => { s with freeNum := s.freeNum + num }
  have turnedFree : ∀ i, (turned.sec i).freeNum = (seg.sec i).freeNum := fun i =>
    Segment.field_modify Section.freeNum fun _ => rfl
  have relinkedWithout : Relinked turned without := Relinked.detach turned sec
  have relinkedBare : Relinked turned bare := relinkedWithout.trans (Relinked.detach without prev)
  have withoutFree : ∀ i, (without.sec i).freeNum = (seg.sec i).freeNum := fun i =>
    (relinkedWithout.freeNum i).trans (turnedFree i)
  have ringWithout : FreeRing without (ring.erase sec) := by
    have ringTurned : FreeRing turned ring := list.modify next _ fun _ => ⟨rfl, rfl⟩
    apply ringTurned.detach
    rw [turnedFree]
    exact linked
  have distinct := (List.nodup_cons.mp list.nodup).2
  have linkedWithout : prev ∈ ring.erase sec ↔ (without.sec prev).freeNum ≠ 0 := by
    rw [withoutFree, List.mem_erase_of_ne apart]
    exact linkedPrev
  have sortedWithout : Sorted without (ring.erase sec) :=
    Sorted.congr (List.Pairwise.sublist List.erase_sublist list.sorted) fun c _ => withoutFree c
  have ringBare : FreeRing bare ((ring.erase sec).erase prev) := ringWithout.detach linkedWithout
  obtain ⟨r₁, r₂, split, start, above⟩ := ringWithout.detach_more sortedWithout linkedWithout
  have prevOut : prev ∉ r₁ ++ r₂ := by
    rw [← split]
    exact (distinct.erase sec).not_mem_erase
  have filledFree : ∀ i, (filled.sec i).freeNum =
      (seg.sec i).freeNum + if i = prev then num else 0 := by
    intro i
    have bareFree := (relinkedBare.freeNum i).trans (turnedFree i)
    rw [Segment.sec_modify]
    split_ifs
    · exact congrArg (· + num) bareFree
    · rw [add_zero]
      exact bareFree
  have others : ∀ c ∈ r₁ ++ r₂, (filled.sec c).freeNum = (without.sec c).freeNum := by
    intro c member
    rw [filledFree, withoutFree, if_neg (ne_of_mem_of_not_mem member prevOut), add_zero]
  rw [split] at ringBare
  have ringFilled : FreeRing filled (r₁ ++ r₂) := ringBare.modify prev _ fun _ => ⟨rfl, rfl⟩
  have sortedFilled : Sorted filled (r₁ ++ r₂) := by
    have shorter : List.Sublist (r₁ ++ r₂) (ring.erase sec) := split ▸ List.erase_sublist
    exact Sorted.congr (List.Pairwise.sublist shorter sortedWithout) others
  have head : filled.last = seg.last := relinkedBare.last
  obtain ⟨seg', ring', settles, relinked, ringed, sorted, order⟩ :=
    ringFilled.place prev sortedFilled
      (by
        intro y member
        have before := above y member
        rw [others y (List.mem_append_left r₂ member), filledFree, if_pos rfl]
        rw [withoutFree prev] at before
        omega)
      (by
        rw [head, List.mem_cons, not_or]
        exact ⟨inner, prevOut⟩)
  have short : r₂.length + 1 ≤ ring.length + 1 := by
    have lengths := congrArg List.length split
    have once := (List.erase_sublist (a := prev) (l := ring.erase sec)).length_le
    have twice := (List.erase_sublist (a := sec) (l := ring)).length_le
    rw [List.length_append] at lengths
    omega
  have sameHead : filled.last = without.last := head.trans relinkedWithout.last.symm
  rw [sameHead, ← start] at settles
  refine ⟨seg', ring', settles.mono short, ?_, ringed, sorted, ?_⟩
  · have merged : Relinked (merge seg sec) filled :=
      relinkedBare.modify_both prev _ fun _ => rfl
    exact merged.trans relinked
  · rw [split]
    exact order

/-- `mem_free` keeps the invariant, without the section. -/
theorem Sound.memFree (sound : Sound seg (m₁ ++ sec :: m₂) ring) (mergeable : Mergeable seg sec) :
    ∃ seg' ring', Settles (fun fuel => memFree fuel seg sec) seg.totalNum.toNat seg' ∧
      Sound seg' (m₁ ++ m₂) ring' := by
  have chain := sound.chain
  have moved : List.Perm (seg.first :: (m₁ ++ sec :: m₂)) (sec :: seg.first :: (m₁ ++ m₂)) :=
    (List.perm_middle.cons _).trans (List.Perm.swap _ _ _)
  have member : sec ∈ seg.first :: (m₁ ++ sec :: m₂) := by simp
  have gone : sec ∉ seg.first :: (m₁ ++ m₂) :=
    (List.nodup_cons.mp (moved.nodup_iff.mp chain.nodup)).1
  have prevMember : seg.prevSec sec ∈ seg.first :: (m₁ ++ m₂) := by
    rw [show seg.prevSec sec = m₁.getLastD seg.first from chain.path.around.1]
    exact List.mem_append_left m₂ (getLastD_mem m₁ seg.first)
  have prevInside := moved.mem_iff.mpr (List.mem_cons_of_mem sec prevMember)
  have used := chain.used sec member
  have free := chain.free sec member
  obtain ⟨seg', ring', settles, relinked, ringed, sorted, order⟩ := sound.list.giveBack
    (sound.linked_iff member mergeable.1) (sound.linked_iff prevInside mergeable.2)
    (ne_of_mem_of_not_mem prevMember gone) (ne_of_mem_of_not_mem prevInside chain.last_not_mem)
    (by omega)
  have distinct := (List.nodup_cons.mp sound.list.nodup).2
  have list : FreeList seg' (seg.first :: (m₁ ++ m₂)) ring' := by
    refine ⟨ringed, sorted, ?_, ?_⟩
    · intro s inRing
      rcases List.mem_cons.mp (order.mem_iff.mp inRing) with rfl | rest
      · exact prevMember
      · have kept := distinct.mem_erase_iff.mp (List.mem_of_mem_erase rest)
        have inside := moved.mem_iff.mp (sound.list.within s kept.2)
        exact (List.mem_cons.mp inside).resolve_left kept.1
    · intro s inside space
      rw [relinked.freeNum, merge_freeNum] at space
      apply order.mem_iff.mpr
      by_cases isPrev : s = seg.prevSec sec
      · exact List.mem_cons.mpr (.inl isPrev)
      · rw [if_neg isPrev, add_zero] at space
        have old := moved.mem_iff.mpr (List.mem_cons_of_mem sec inside)
        have other : s ≠ sec := ne_of_mem_of_not_mem inside gone
        apply List.mem_cons_of_mem
        rw [List.mem_erase_of_ne isPrev, List.mem_erase_of_ne other]
        exact sound.list.covers s old space
  have counts : Counts seg' (sec :: seg.first :: (m₁ ++ m₂ ++ [seg.last])) := by
    apply sound.counts.congr (moved.append_right [seg.last]).symm
    · rw [relinked.fields]
      rfl
    · rw [relinked.fields]
      rfl
    · rw [relinked.fields]
      rfl
    · intro s _
      rw [relinked.usedNum, merge_field Section.usedNum fun _ _ _ => rfl]
    · intro s _
      rw [relinked.field Section.reqSize fun _ => rfl,
        merge_field Section.reqSize fun _ _ _ => rfl]
  refine ⟨_, ring', (settles.mono sound.ring_short).map _, ?_⟩
  apply Sound.adjusted (relinked.chain chain.merge)
  · rw [relinked.first]
    exact list
  · rw [relinked.first, relinked.last]
    exact counts.tail
  · rw [relinked.fields]
    exact sound.small

end Dmm.Mem
