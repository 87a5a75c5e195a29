import Dmm.Mem.SegmentLists

/-!
# The physical chain of a segment

The sections from the first to the last, which tile the segment, and the two ways the
allocator changes them: cutting a new section from the tail of a section's free space and
giving a section's space back to the one before it.
-/

namespace Dmm.Mem

open Dmm.Word Dmm.Linked

variable {seg seg' : Segment} {sec pos num i : Int} {mid m₁ m₂ : List Int} {size : UInt64}

/-- The physical chain: the first section, those of the list and the last. -/
structure Chain (seg : Segment) (mid : List Int) : Prop where
  path : Walk seg.nextSec seg.prevSec seg.first mid seg.last
  first_prev : (seg.sec seg.first).prevRel = 0
  used : ∀ s ∈ seg.first :: mid, 2 ≤ (seg.sec s).usedNum
  free : ∀ s ∈ seg.first :: mid, 0 ≤ (seg.sec s).freeNum
  last_used : (seg.sec seg.last).usedNum = 0
  last_free : (seg.sec seg.last).freeNum = 0
  last_name : (seg.sec seg.last).name.headD 0 = 0
  span : seg.last = seg.first + (seg.totalNum - 1)

namespace Chain

variable (chain : Chain seg mid)

include chain

theorem used_le_next (member : sec ∈ seg.first :: mid) :
    sec + 2 + (seg.sec sec).freeNum ≤ seg.nextSec sec := by
  have used := chain.used sec member
  unfold Segment.nextSec
  omega

theorem increasing : (seg.first :: (mid ++ [seg.last])).Pairwise (· < ·) := by
  apply chain.path.increasing
  intro c member
  have after := chain.used_le_next member
  have free := chain.free c member
  omega

theorem nodup : (seg.first :: mid).Nodup := by
  have distinct := chain.increasing.imp (S := (· ≠ ·)) fun less => ne_of_lt less
  rw [← List.cons_append] at distinct
  exact (List.pairwise_append.mp distinct).1

theorem targets : (mid ++ [seg.last]).Nodup := by
  have distinct := chain.increasing.imp (S := (· ≠ ·)) fun less => ne_of_lt less
  exact (List.pairwise_cons.mp distinct).2

theorem last_not_mem : seg.last ∉ seg.first :: mid := by
  have sorted := chain.increasing
  rw [← List.cons_append] at sorted
  intro member
  exact lt_irrefl _ ((List.pairwise_append.mp sorted).2.2 _ member _ (List.mem_singleton_self _))

theorem bounds (member : sec ∈ seg.first :: mid) : seg.first ≤ sec ∧ sec < seg.last := by
  have sorted := chain.increasing
  have below := (List.pairwise_cons.mp sorted).1
  constructor
  · rcases List.mem_cons.mp member with rfl | later
    · exact le_refl _
    · exact (below sec (List.mem_append_left _ later)).le
  · rw [← List.cons_append] at sorted
    exact (List.pairwise_append.mp sorted).2.2 _ member _ (List.mem_singleton_self _)

end Chain

/-- Along a walk by distances, the distances add up. -/
theorem sum_along {next prev : Int → Int} {s e : Int} {l : List Int} (distance : Int → Int)
    (walk : ∀ c, next c = c + distance c) (path : Walk next prev s l e) :
    ((s :: l).map distance).sum = e - s := by
  induction l generalizing s with
  | nil =>
    have step := path.1
    rw [walk] at step
    simp only [List.map_cons, List.map_nil, List.sum_cons, List.sum_nil]
    omega
  | cons y l ih =>
    have step := path.1
    have rest := ih path.2.2
    rw [walk] at step
    rw [List.map_cons, List.sum_cons, rest]
    omega

theorem Chain.tiles (chain : Chain seg mid) :
    ((seg.first :: mid).map fun s => (seg.sec s).usedNum + (seg.sec s).freeNum).sum + 1 =
      seg.totalNum := by
  have span := chain.span
  rw [sum_along (fun s => (seg.sec s).usedNum + (seg.sec s).freeNum) _ chain.path]
  · omega
  · intro c
    unfold Segment.nextSec
    omega

/-- Every section takes two blocks, so there are not many. -/
theorem Chain.length_lt (chain : Chain seg mid) : 2 * (mid.length + 1 : Int) < seg.totalNum := by
  have least := List.card_nsmul_le_sum
    ((seg.first :: mid).map fun s => (seg.sec s).usedNum + (seg.sec s).freeNum) 2 (by
      intro x member
      obtain ⟨s, inside, rfl⟩ := List.mem_map.mp member
      have used := chain.used s inside
      have free := chain.free s inside
      omega)
  have tiles := chain.tiles
  simp only [List.length_map, List.length_cons, nsmul_eq_mul, Nat.cast_add, Nat.cast_one] at least
  omega

/-- The chain depends on sizes and distances, and on the name of the last section. -/
theorem Chain.congr (chain : Chain seg mid) (first : seg'.first = seg.first)
    (last : seg'.last = seg.last) (total : seg'.totalNum = seg.totalNum)
    (prev : ∀ i, (seg'.sec i).prevRel = (seg.sec i).prevRel)
    (used : ∀ i, (seg'.sec i).usedNum = (seg.sec i).usedNum)
    (free : ∀ i, (seg'.sec i).freeNum = (seg.sec i).freeNum)
    (name : (seg'.sec seg.last).name = (seg.sec seg.last).name) : Chain seg' mid := by
  have forward : seg'.nextSec = seg.nextSec := by
    funext i
    rw [Segment.nextSec, Segment.nextSec, used, free]
  have backward : seg'.prevSec = seg.prevSec := by
    funext i
    rw [Segment.prevSec, Segment.prevSec, prev]
  constructor
  · rw [forward, backward, first, last]
    exact chain.path
  · rw [first, prev]
    exact chain.first_prev
  · simpa only [first, used] using chain.used
  · simpa only [first, free] using chain.free
  · rw [last, used]
    exact chain.last_used
  · rw [last, free]
    exact chain.last_free
  · rw [last, name]
    exact chain.last_name
  · rw [last, first, total]
    exact chain.span

theorem Relinked.chain (relinked : Relinked seg seg') (chain : Chain seg mid) :
    Chain seg' mid := by
  apply chain.congr relinked.first relinked.last
  · rw [relinked.fields]
  · exact relinked.field Section.prevRel fun _ => rfl
  · exact relinked.usedNum
  · exact relinked.freeNum
  · exact relinked.field Section.name (fun _ => rfl) _

/-! ## Cutting a section -/

/-- The segment after a cut. -/
def cut (seg : Segment) (pos num : Int) (size : UInt64) : Segment :=
  let new := seg.nextSec pos - num
  let sec (i : Int) : Section :=
    if i = pos then { seg.sec i with freeNum := (seg.sec i).freeNum - num }
    else if i = new then
      { prevRel := pos - new, usedNum := num, reqSize := size, freeNum := 0, lessRel := 0,
        moreRel := 0, name := (seg.sec i).name.set 0 0 }
    else if i = seg.nextSec pos then { seg.sec i with prevRel := -num }
    else seg.sec i
  { seg with sec := sec }

/-- The stores of a cut, where the new section lies inside the old one. -/
theorem carve_eq (after : pos < seg.nextSec pos - num) (inside : 0 < num) :
    carve seg pos num size = (cut seg pos num size, seg.nextSec pos - num) := by
  have start : (seg.modify (seg.nextSec pos) fun s => { s with prevRel := -num }).prevSec
      (seg.nextSec pos) = seg.nextSec pos - num := by
    rw [Segment.prevSec_modify, Function.update_self, sub_eq_add_neg]
  have apart : pos ≠ seg.nextSec pos - num := by omega
  have short : seg.nextSec pos - num ≠ seg.nextSec pos := by omega
  have far : pos ≠ seg.nextSec pos := by omega
  simp only [carve, start, cut, Prod.mk.injEq, and_true]
  simp only [Segment.modify, Segment.mk.injEq, true_and]
  funext i
  by_cases here : i = pos
  · subst here
    simp [Function.update_of_ne apart, Function.update_of_ne far]
  · by_cases new : i = seg.nextSec pos - num
    · subst new
      simp [here, short]
    · by_cases next : i = seg.nextSec pos
      · subst next
        simp [here, new]
      · simp [here, new, next]

theorem cut_new (after : pos < seg.nextSec pos - num) :
    (cut seg pos num size).sec (seg.nextSec pos - num) =
      { prevRel := pos - (seg.nextSec pos - num), usedNum := num, reqSize := size, freeNum := 0,
        lessRel := 0, moreRel := 0, name := (seg.sec (seg.nextSec pos - num)).name.set 0 0 } := by
  simp [cut, (ne_of_lt after).symm]

/-- A cut changes two distances of the old sections and nothing else. -/
theorem cut_old {α : Type} (f : Section → α)
    (keeps : ∀ s prev free, f { s with prevRel := prev, freeNum := free } = f s)
    (old : i ≠ seg.nextSec pos - num) : f ((cut seg pos num size).sec i) = f (seg.sec i) := by
  simp only [cut, if_neg old]
  split_ifs
  · exact keeps (seg.sec i) (seg.sec i).prevRel _
  · exact keeps (seg.sec i) _ (seg.sec i).freeNum
  · rfl

theorem cut_freeNum (old : i ≠ seg.nextSec pos - num) :
    ((cut seg pos num size).sec i).freeNum =
      (seg.sec i).freeNum - if i = pos then num else 0 := by
  simp only [cut, if_neg old]
  split_ifs <;> simp

theorem cut_prevRel (old : i ≠ seg.nextSec pos - num) (far : pos ≠ seg.nextSec pos) :
    ((cut seg pos num size).sec i).prevRel =
      if i = seg.nextSec pos then -num else (seg.sec i).prevRel := by
  simp only [cut, if_neg old]
  split_ifs <;> simp_all

theorem cut_nextSec (after : pos < seg.nextSec pos - num) : (cut seg pos num size).nextSec =
    Function.update (Function.update seg.nextSec pos (seg.nextSec pos - num))
      (seg.nextSec pos - num) (seg.nextSec pos) := by
  funext i
  rw [Segment.nextSec]
  by_cases new : i = seg.nextSec pos - num
  · rw [new, Function.update_self, cut_new after]
    simp
  · rw [Function.update_of_ne new, cut_freeNum new, cut_old Section.usedNum (fun _ _ _ => rfl) new]
    by_cases here : i = pos
    · rw [here, Function.update_self, if_pos rfl, Segment.nextSec]
      ring
    · rw [Function.update_of_ne here, if_neg here, sub_zero]
      rfl

theorem cut_prevSec (after : pos < seg.nextSec pos - num) (inside : 0 < num) :
    (cut seg pos num size).prevSec =
      Function.update (Function.update seg.prevSec (seg.nextSec pos) (seg.nextSec pos - num))
        (seg.nextSec pos - num) pos := by
  have far : pos ≠ seg.nextSec pos := by omega
  funext i
  rw [Segment.prevSec]
  by_cases new : i = seg.nextSec pos - num
  · rw [new, Function.update_self, cut_new after]
    simp
  · rw [Function.update_of_ne new, cut_prevRel new far]
    by_cases next : i = seg.nextSec pos
    · rw [next, Function.update_self, if_pos rfl]
      ring
    · rw [Function.update_of_ne next, if_neg next]
      rfl

/-- Cutting a section from the free space of another keeps the chain. -/
theorem Chain.cut (size : UInt64) (chain : Chain seg (m₁ ++ m₂))
    (here : m₁.getLastD seg.first = pos) (large : 2 ≤ num)
    (fits : num ≤ (seg.sec pos).freeNum) :
    seg.nextSec pos - num ∉ seg.first :: (m₁ ++ m₂ ++ [seg.last]) ∧
      pos < seg.nextSec pos - num ∧
      Chain (cut seg pos num size) (m₁ ++ (seg.nextSec pos - num) :: m₂) := by
  have member : pos ∈ seg.first :: (m₁ ++ m₂) := by
    have inside := getLastD_mem m₁ seg.first
    rw [here] at inside
    exact List.mem_append_left m₂ inside
  have after : pos < seg.nextSec pos - num := by
    have room := chain.used_le_next member
    omega
  have next : seg.nextSec pos = m₂.headD seg.last := by
    rw [← here]
    exact chain.path.joint.1
  have fresh : seg.nextSec pos - num ∉ seg.first :: (m₁ ++ m₂ ++ [seg.last]) := by
    apply not_mem_between chain.increasing
    · rw [here]
      exact after
    · rw [← next]
      omega
  have old : ∀ s ∈ seg.first :: (m₁ ++ m₂), s ≠ seg.nextSec pos - num := by
    intro s inside
    exact ne_of_mem_of_not_mem (List.mem_append_left [seg.last] inside) fresh
  have atLast : seg.last ≠ seg.nextSec pos - num := ne_of_mem_of_not_mem (by simp) fresh
  have cases : ∀ s ∈ seg.first :: (m₁ ++ (seg.nextSec pos - num) :: m₂),
      s = seg.nextSec pos - num ∨ s ∈ seg.first :: (m₁ ++ m₂) := by
    intro s inside
    simp only [List.mem_cons, List.mem_append] at inside ⊢
    tauto
  refine ⟨fresh, after, ?_⟩
  constructor
  · have inserted := chain.path.insert chain.nodup chain.targets
      (fun inside => old _ inside rfl) atLast.symm
    rw [here, ← next] at inserted
    rw [cut_nextSec after, cut_prevSec after (by omega)]
    exact inserted
  · have ordered := (chain.bounds member).1
    refine (cut_prevRel (old seg.first (by simp)) (by omega)).trans ?_
    rw [if_neg (by omega)]
    exact chain.first_prev
  · intro s inside
    rcases cases s inside with rfl | before
    · rw [cut_new after]
      exact large
    · rw [cut_old Section.usedNum (fun _ _ _ => rfl) (old s before)]
      exact chain.used s before
  · intro s inside
    rcases cases s inside with rfl | before
    · rw [cut_new after]
    · rw [cut_freeNum (old s before)]
      have free := chain.free s before
      split_ifs with same
      · rw [same]
        exact sub_nonneg.mpr fits
      · omega
  · exact (cut_old Section.usedNum (fun _ _ _ => rfl) atLast).trans chain.last_used
  · have other : seg.last ≠ pos := (ne_of_mem_of_not_mem member chain.last_not_mem).symm
    refine (cut_freeNum atLast).trans ?_
    rw [if_neg other, sub_zero]
    exact chain.last_free
  · exact (congrArg (List.headD · 0) (cut_old Section.name (fun _ _ _ => rfl) atLast)).trans
      chain.last_name
  · exact chain.span

/-! ## Giving a section back -/

/-- The segment after a section's space has gone to the one before it, apart from the free
list. -/
def merge (seg : Segment) (sec : Int) : Segment :=
  (seg.modify (seg.nextSec sec) fun s =>
    { s with prevRel := seg.prevSec sec - seg.nextSec sec }).modify (seg.prevSec sec) fun s =>
    { s with freeNum := s.freeNum + ((seg.sec sec).usedNum + (seg.sec sec).freeNum) }

theorem merge_field {α : Type} (f : Section → α)
    (keeps : ∀ s prev free, f { s with prevRel := prev, freeNum := free } = f s) (i : Int) :
    f ((merge seg sec).sec i) = f (seg.sec i) := by
  apply (Segment.field_modify f fun s => keeps s s.prevRel _).trans
  exact Segment.field_modify f fun s => keeps s _ s.freeNum

theorem merge_freeNum (i : Int) : ((merge seg sec).sec i).freeNum = (seg.sec i).freeNum +
    if i = seg.prevSec sec then (seg.sec sec).usedNum + (seg.sec sec).freeNum else 0 := by
  rw [merge, Segment.sec_modify]
  split_ifs with here
  · exact congrArg (· + _) (Segment.field_modify Section.freeNum fun _ => rfl)
  · rw [add_zero]
    exact Segment.field_modify Section.freeNum fun _ => rfl

theorem merge_nextSec (back : seg.nextSec (seg.prevSec sec) = sec) : (merge seg sec).nextSec =
    Function.update seg.nextSec (seg.prevSec sec) (seg.nextSec sec) := by
  funext i
  rw [Segment.nextSec, merge_freeNum, merge_field Section.usedNum fun _ _ _ => rfl]
  by_cases here : i = seg.prevSec sec
  · subst here
    rw [if_pos rfl, Function.update_self]
    unfold Segment.nextSec at back ⊢
    omega
  · rw [if_neg here, Function.update_of_ne here, add_zero]
    rfl

theorem merge_prevSec (seg : Segment) (sec : Int) : (merge seg sec).prevSec =
    Function.update seg.prevSec (seg.nextSec sec) (seg.prevSec sec) := by
  have second : (merge seg sec).prevSec = (seg.modify (seg.nextSec sec) fun s =>
      { s with prevRel := seg.prevSec sec - seg.nextSec sec }).prevSec := by
    rw [merge, Segment.prevSec_modify]
    exact Function.update_eq_self _ (Segment.prevSec _)
  rw [second, Segment.prevSec_modify, add_sub_cancel]

/-- Giving a section's space back keeps the chain. -/
theorem Chain.merge (chain : Chain seg (m₁ ++ sec :: m₂)) :
    Chain (merge seg sec) (m₁ ++ m₂) := by
  have before : seg.prevSec sec = m₁.getLastD seg.first := chain.path.around.1
  have within : ∀ s ∈ seg.first :: (m₁ ++ m₂), s ∈ seg.first :: (m₁ ++ sec :: m₂) := by
    intro s inside
    simp only [List.mem_cons, List.mem_append] at inside ⊢
    tauto
  have prevMember : seg.prevSec sec ∈ seg.first :: (m₁ ++ sec :: m₂) := by
    rw [before]
    exact List.mem_append_left (sec :: m₂) (getLastD_mem m₁ seg.first)
  have secMember : sec ∈ seg.first :: (m₁ ++ sec :: m₂) := by simp
  have back : seg.nextSec (seg.prevSec sec) = sec := by
    rw [before]
    exact chain.path.joint.1
  constructor
  · have removed := chain.path.remove chain.nodup chain.targets
    rw [merge_nextSec back, merge_prevSec]
    exact removed
  · have ordered := chain.bounds secMember
    have after := chain.used_le_next secMember
    have free := chain.free sec secMember
    have walk := congrFun (merge_prevSec seg sec) seg.first
    rw [Function.update_of_ne (by omega)] at walk
    exact (add_left_cancel walk).trans chain.first_prev
  · intro s inside
    rw [merge_field Section.usedNum (fun _ _ _ => rfl)]
    exact chain.used s (within s inside)
  · intro s inside
    have free := chain.free s (within s inside)
    have used := chain.used sec secMember
    have space := chain.free sec secMember
    rw [merge_freeNum]
    split_ifs <;> omega
  · exact (merge_field Section.usedNum (fun _ _ _ => rfl) _).trans chain.last_used
  · have other : seg.last ≠ seg.prevSec sec :=
      (ne_of_mem_of_not_mem prevMember chain.last_not_mem).symm
    refine (merge_freeNum seg.last).trans ?_
    rw [if_neg other, add_zero]
    exact chain.last_free
  · exact (congrArg (List.headD · 0) (merge_field Section.name (fun _ _ _ => rfl) _)).trans
      chain.last_name
  · exact chain.span

end Dmm.Mem
