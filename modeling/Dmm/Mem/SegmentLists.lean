import Dmm.Mem.Segment

/-!
# The two lists of a segment

The physical chain and the free list as paths, and what the stores of `dmm_segment.c` do to
them. Stores to `less_rel` and `more_rel` leave the chain as it is (`Relinked`); the free list
is kept apart from the order of its elements, because an allocation changes a section's free
space before it moves the section.
-/

namespace Dmm.Mem

open Dmm.Word Dmm.Linked

variable {seg seg' : Segment} {sec pos less more num i : Int} {mid ring r₁ r₂ m₁ m₂ : List Int}

namespace Segment

theorem sec_modify (seg : Segment) (sec : Int) (f : Section → Section) (i : Int) :
    (seg.modify sec f).sec i = if i = sec then f (seg.sec i) else seg.sec i := by
  by_cases same : i = sec
  · subst same
    simp [modify]
  · simp [modify, same]

theorem field_modify {α : Type} {seg : Segment} {sec : Int} {f : Section → Section} {i : Int}
    (field : Section → α) (keeps : ∀ s, field (f s) = field s) :
    field ((seg.modify sec f).sec i) = field (seg.sec i) := by
  rw [sec_modify]
  split_ifs
  · exact keeps _
  · rfl

/-- A store changes the walk over a distance only at the section it goes to. -/
private theorem walk_modify (seg : Segment) (sec : Int) (f : Section → Section)
    (rel : Section → Int) : (fun i => i + rel ((seg.modify sec f).sec i)) =
      Function.update (fun i => i + rel (seg.sec i)) sec (sec + rel (f (seg.sec sec))) := by
  funext i
  rw [sec_modify]
  by_cases same : i = sec
  · rw [same, if_pos rfl, Function.update_self]
  · rw [if_neg same, Function.update_of_ne same]

theorem moreSec_modify (seg : Segment) (sec : Int) (f : Section → Section) :
    (seg.modify sec f).moreSec =
      Function.update seg.moreSec sec (sec + (f (seg.sec sec)).moreRel) :=
  seg.walk_modify sec f Section.moreRel

theorem lessSec_modify (seg : Segment) (sec : Int) (f : Section → Section) :
    (seg.modify sec f).lessSec =
      Function.update seg.lessSec sec (sec + (f (seg.sec sec)).lessRel) :=
  seg.walk_modify sec f Section.lessRel

theorem prevSec_modify (seg : Segment) (sec : Int) (f : Section → Section) :
    (seg.modify sec f).prevSec =
      Function.update seg.prevSec sec (sec + (f (seg.sec sec)).prevRel) :=
  seg.walk_modify sec f Section.prevRel

@[simp] theorem moreSec_setMore (seg : Segment) (sec target : Int) :
    (seg.setMore sec target).moreSec = Function.update seg.moreSec sec target := by
  rw [setMore, moreSec_modify, add_sub_cancel]

@[simp] theorem moreSec_setLess (seg : Segment) (sec target : Int) :
    (seg.setLess sec target).moreSec = seg.moreSec := by
  rw [setLess, moreSec_modify]
  exact Function.update_eq_self sec seg.moreSec

@[simp] theorem lessSec_setLess (seg : Segment) (sec target : Int) :
    (seg.setLess sec target).lessSec = Function.update seg.lessSec sec target := by
  rw [setLess, lessSec_modify, add_sub_cancel]

@[simp] theorem lessSec_setMore (seg : Segment) (sec target : Int) :
    (seg.setMore sec target).lessSec = seg.lessSec := by
  rw [setMore, lessSec_modify]
  exact Function.update_eq_self sec seg.lessSec

end Segment

/-! ## Stores to the links -/

/-- A section apart from its links in the free list. -/
def Section.body (s : Section) : Section := { s with lessRel := 0, moreRel := 0 }

/-- Nothing but links of the free list has changed. -/
structure Relinked (seg seg' : Segment) : Prop where
  body : ∀ i, (seg'.sec i).body = (seg.sec i).body
  fields : seg' = { seg with sec := seg'.sec }

namespace Relinked

theorem refl (seg : Segment) : Relinked seg seg := ⟨fun _ => rfl, rfl⟩

theorem trans {seg'' : Segment} (first : Relinked seg seg') (second : Relinked seg' seg'') :
    Relinked seg seg'' := by
  constructor
  · intro i
    exact (second.body i).trans (first.body i)
  · have outer := second.fields
    rw [first.fields] at outer
    exact outer

theorem modify (seg : Segment) (sec : Int) (f : Section → Section)
    (keeps : ∀ s, (f s).body = s.body) : Relinked seg (seg.modify sec f) := by
  constructor
  · intro i
    exact Segment.field_modify Section.body keeps
  · rfl

theorem setMore (seg : Segment) (sec target : Int) : Relinked seg (seg.setMore sec target) :=
  modify seg sec _ fun _ => rfl

theorem setLess (seg : Segment) (sec target : Int) : Relinked seg (seg.setLess sec target) :=
  modify seg sec _ fun _ => rfl

theorem unlink (seg : Segment) (sec : Int) : Relinked seg (seg.unlink sec) :=
  (setMore seg _ _).trans (setLess _ _ _)

theorem insert (seg : Segment) (less pos more : Int) : Relinked seg (seg.insert less pos more) :=
  (((setMore seg _ _).trans (setLess _ _ _)).trans (setMore _ _ _)).trans (setLess _ _ _)

theorem detach (seg : Segment) (sec : Int) : Relinked seg (Mem.detach seg sec) := by
  unfold Mem.detach
  split_ifs
  · exact unlink seg sec
  · exact refl seg

theorem modify_both (relinked : Relinked seg seg') (sec : Int) (f : Section → Section)
    (commutes : ∀ s, (f s).body = f s.body) :
    Relinked (seg.modify sec f) (seg'.modify sec f) := by
  constructor
  · intro i
    rw [Segment.sec_modify, Segment.sec_modify]
    split_ifs
    · rw [commutes, commutes, relinked.body]
    · exact relinked.body i
  · rw [relinked.fields]
    rfl

variable (relinked : Relinked seg seg')

include relinked

theorem field {α : Type} (f : Section → α) (ofBody : ∀ s, f s.body = f s) (i : Int) :
    f (seg'.sec i) = f (seg.sec i) := by
  rw [← ofBody, relinked.body, ofBody]

theorem freeNum (i : Int) : (seg'.sec i).freeNum = (seg.sec i).freeNum :=
  relinked.field Section.freeNum (fun _ => rfl) i

theorem usedNum (i : Int) : (seg'.sec i).usedNum = (seg.sec i).usedNum :=
  relinked.field Section.usedNum (fun _ => rfl) i

theorem last : seg'.last = seg.last := by
  rw [relinked.fields]

theorem first : seg'.first = seg.first := by
  rw [relinked.fields]

end Relinked

/-! ## The free list -/

/-- The free list runs through these sections and back to its head. -/
structure FreeRing (seg : Segment) (ring : List Int) : Prop where
  path : Walk seg.moreSec seg.lessSec seg.last ring seg.last
  nodup : (seg.last :: ring).Nodup

namespace FreeRing

theorem targets (free : FreeRing seg ring) : (ring ++ [seg.last]).Nodup :=
  (List.perm_append_singleton seg.last ring).nodup_iff.mpr free.nodup

theorem congr (free : FreeRing seg ring) (head : seg'.last = seg.last)
    (forward : ∀ c ∈ seg.last :: ring, seg'.moreSec c = seg.moreSec c)
    (backward : ∀ c ∈ seg.last :: ring, seg'.lessSec c = seg.lessSec c) : FreeRing seg' ring := by
  constructor
  · rw [head]
    apply free.path.congr forward
    intro c member
    apply backward
    exact (List.perm_append_singleton seg.last ring).mem_iff.mp member
  · rw [head]
    exact free.nodup

theorem modify (free : FreeRing seg ring) (sec : Int) (f : Section → Section)
    (keeps : ∀ s, (f s).moreRel = s.moreRel ∧ (f s).lessRel = s.lessRel) :
    FreeRing (seg.modify sec f) ring := by
  have head : (seg.modify sec f).last = seg.last := rfl
  apply free.congr head
  · intro c _
    rw [Segment.moreSec_modify, (keeps _).1]
    exact congrFun (Function.update_eq_self sec seg.moreSec) c
  · intro c _
    rw [Segment.lessSec_modify, (keeps _).2]
    exact congrFun (Function.update_eq_self sec seg.lessSec) c

theorem modify_outside (free : FreeRing seg ring) (f : Section → Section)
    (outside : sec ∉ seg.last :: ring) : FreeRing (seg.modify sec f) ring := by
  have head : (seg.modify sec f).last = seg.last := rfl
  apply free.congr head
  · intro c member
    rw [Segment.moreSec_modify, Function.update_of_ne (ne_of_mem_of_not_mem member outside)]
  · intro c member
    rw [Segment.lessSec_modify, Function.update_of_ne (ne_of_mem_of_not_mem member outside)]

theorem unlink (free : FreeRing seg (r₁ ++ sec :: r₂)) :
    FreeRing (seg.unlink sec) (r₁ ++ r₂) := by
  have head := (Relinked.unlink seg sec).last
  constructor
  · rw [head]
    simpa [Segment.unlink] using free.path.remove free.nodup free.targets
  · rw [head]
    exact List.Nodup.sublist (by simp) free.nodup

theorem insert (free : FreeRing seg (r₁ ++ r₂)) (fresh : pos ∉ seg.last :: (r₁ ++ r₂)) :
    FreeRing (seg.insert (r₁.getLastD seg.last) pos (r₂.headD seg.last)) (r₁ ++ pos :: r₂) := by
  have head := (Relinked.insert seg (r₁.getLastD seg.last) pos (r₂.headD seg.last)).last
  have other : pos ≠ seg.last := by
    rintro rfl
    simp at fresh
  constructor
  · rw [head]
    simpa [Segment.insert] using free.path.insert free.nodup free.targets fresh other
  · rw [head]
    have moved : List.Perm (seg.last :: (r₁ ++ pos :: r₂)) (pos :: seg.last :: (r₁ ++ r₂)) :=
      (List.perm_middle.cons seg.last).trans (List.Perm.swap _ _ _)
    exact moved.nodup_iff.mpr (List.nodup_cons.mpr ⟨fresh, free.nodup⟩)

theorem not_mem_around (free : FreeRing seg (r₁ ++ sec :: r₂)) :
    sec ∉ seg.last :: (r₁ ++ r₂) := by
  have moved : List.Perm (seg.last :: (r₁ ++ sec :: r₂)) (sec :: seg.last :: (r₁ ++ r₂)) :=
    (List.perm_middle.cons seg.last).trans (List.Perm.swap _ _ _)
  exact (List.nodup_cons.mp (moved.nodup_iff.mp free.nodup)).1

theorem erase_eq (free : FreeRing seg (r₁ ++ sec :: r₂)) :
    (r₁ ++ sec :: r₂).erase sec = r₁ ++ r₂ := by
  have notBefore : sec ∉ r₁ := by
    have outside := free.not_mem_around
    simp only [List.mem_cons, List.mem_append, not_or] at outside
    exact outside.2.1
  rw [List.erase_append_right _ notBefore, List.erase_cons_head]

/-- `mem_free` takes a section out, where a section is in the list if it has free space and
only then. -/
theorem detach (free : FreeRing seg ring) (linked : sec ∈ ring ↔ (seg.sec sec).freeNum ≠ 0) :
    FreeRing (Mem.detach seg sec) (ring.erase sec) := by
  unfold Mem.detach
  split
  case isTrue space =>
    obtain ⟨r₁, r₂, rfl⟩ := List.append_of_mem (linked.mpr space)
    rw [free.erase_eq]
    exact free.unlink
  case isFalse full =>
    rw [List.erase_of_not_mem fun member => full (linked.mp member)]
    exact free

theorem moreRel_ne_zero (free : FreeRing seg ring) (linked : sec ∈ ring) :
    (seg.sec sec).moreRel ≠ 0 := by
  intro still
  apply free.path.next_ne free.targets linked
  rw [Segment.moreSec, still, add_zero]

end FreeRing

/-- The sections lie in the order of their free space. -/
def Sorted (seg : Segment) (ring : List Int) : Prop :=
  ring.Pairwise fun a b => (seg.sec a).freeNum ≤ (seg.sec b).freeNum

namespace Sorted

/-- The free space of the sections is all the order depends on. -/
theorem congr (sorted : Sorted seg ring)
    (free : ∀ c ∈ ring, (seg'.sec c).freeNum = (seg.sec c).freeNum) : Sorted seg' ring := by
  apply List.Pairwise.imp_of_mem _ sorted
  intro a b inA inB ordered
  rw [free a inA, free b inB]
  exact ordered

theorem insert (sorted : Sorted seg (r₁ ++ r₂))
    (above : ∀ y ∈ r₁, (seg.sec y).freeNum ≤ (seg.sec pos).freeNum)
    (below : ∀ y ∈ r₂, (seg.sec pos).freeNum ≤ (seg.sec y).freeNum) :
    Sorted seg (r₁ ++ pos :: r₂) := by
  obtain ⟨front, back, across⟩ := List.pairwise_append.mp sorted
  apply List.pairwise_append.mpr
  refine ⟨front, List.pairwise_cons.mpr ⟨below, back⟩, ?_⟩
  intro a inFront b inBack
  rcases List.mem_cons.mp inBack with rfl | later
  · exact above a inFront
  · exact across a inFront b later

/-- What is at most the free space at a cut is at most all behind it. -/
theorem head_le (sorted : Sorted seg ring) {bound : Int}
    (fits : ring.headD seg.last ≠ seg.last → bound ≤ (seg.sec (ring.headD seg.last)).freeNum)
    (others : seg.last ∉ ring) : ∀ y ∈ ring, bound ≤ (seg.sec y).freeNum := by
  cases ring with
  | nil => simp
  | cons z rest =>
    have least : bound ≤ (seg.sec z).freeNum :=
      fits fun same => others (List.mem_cons.mpr (.inl same.symm))
    intro y member
    rcases List.mem_cons.mp member with rfl | later
    · exact least
    · exact least.trans (List.rel_of_pairwise_cons sorted later)

/-- What is at least the free space at a cut is at least all before it. -/
theorem le_getLast (sorted : Sorted seg ring) {bound : Int}
    (fits : ring.getLastD seg.last ≠ seg.last →
      (seg.sec (ring.getLastD seg.last)).freeNum ≤ bound)
    (others : seg.last ∉ ring) : ∀ y ∈ ring, (seg.sec y).freeNum ≤ bound := by
  cases ring with
  | nil => simp
  | cons z rest =>
    rw [List.getLastD_cons] at fits
    intro y member
    have largest : (seg.sec y).freeNum ≤ (seg.sec (rest.getLastD z)).freeNum :=
      rel_getLastD (r := fun a b => (seg.sec a).freeNum ≤ (seg.sec b).freeNum)
        (fun _ => le_refl _) sorted y member
    apply largest.trans
    apply fits
    intro same
    exact others (same ▸ getLastD_mem rest z)

end Sorted

/-- Where `mem_free` starts to look for the place of a section: behind the one it had. -/
theorem FreeRing.detach_more (free : FreeRing seg ring) (sorted : Sorted seg ring)
    (linked : sec ∈ ring ↔ (seg.sec sec).freeNum ≠ 0) :
    ∃ r₁ r₂, ring.erase sec = r₁ ++ r₂ ∧
      (if (seg.sec sec).freeNum ≠ 0 then seg.moreSec sec else seg.moreSec seg.last) =
        r₂.headD seg.last ∧
      ∀ y ∈ r₁, (seg.sec y).freeNum ≤ (seg.sec sec).freeNum := by
  by_cases space : (seg.sec sec).freeNum ≠ 0
  · obtain ⟨r₁, r₂, rfl⟩ := List.append_of_mem (linked.mpr space)
    refine ⟨r₁, r₂, free.erase_eq, ?_, ?_⟩
    · rw [if_pos space]
      exact free.path.around.2
    · intro y member
      exact (List.pairwise_append.mp sorted).2.2 y member sec (by simp)
  · refine ⟨[], ring, List.erase_of_not_mem fun member => space (linked.mp member), ?_, by simp⟩
    rw [if_neg space]
    exact free.path.next_start

/-- The loop of `mem_alloc` that finds the place of a section before the one it had. -/
theorem FreeRing.seek_less (pos : Int) (free : FreeRing seg (r₁ ++ r₂))
    (sorted : Sorted seg (r₁ ++ r₂))
    (below : ∀ y ∈ r₂, (seg.sec pos).freeNum ≤ (seg.sec y).freeNum) :
    ∃ q₁ q₂, r₁ ++ r₂ = q₁ ++ q₂ ∧ Sorted seg (q₁ ++ pos :: q₂) ∧
      Settles (fun fuel => seek seg.lessSec (fun less => less == seg.last ||
        decide ((seg.sec pos).freeNum ≥ (seg.sec less).freeNum)) fuel (r₁.getLastD seg.last))
        (r₁.length + 1) (q₁.getLastD seg.last) := by
  obtain ⟨q₁, q₂, rfl, passed, found, settles⟩ := free.path.take.seek_prev
    (fun less => less == seg.last ||
      decide ((seg.sec pos).freeNum ≥ (seg.sec less).freeNum)) (by simp)
  have headless : seg.last ∉ q₁ := by
    have outside := (List.nodup_cons.mp free.nodup).1
    simp only [List.mem_append, not_or] at outside
    exact outside.1.1
  rw [List.append_assoc] at sorted
  refine ⟨q₁, q₂ ++ r₂, List.append_assoc q₁ q₂ r₂, ?_, settles⟩
  apply sorted.insert
  · apply Sorted.le_getLast (List.pairwise_append.mp sorted).1 _ headless
    intro other
    rw [beq_false_of_ne other, Bool.false_or] at found
    exact of_decide_eq_true found
  · intro y member
    rcases List.mem_append.mp member with between | behind
    · have smaller := passed y between
      simp only [Bool.or_eq_false_iff, decide_eq_false_iff_not, not_le, ge_iff_le] at smaller
      exact smaller.2.le
    · exact below y behind

/-- The loop of `mem_free` that finds the place of a section behind the one it had. -/
theorem FreeRing.seek_more (pos : Int) (free : FreeRing seg (r₁ ++ r₂))
    (sorted : Sorted seg (r₁ ++ r₂))
    (above : ∀ y ∈ r₁, (seg.sec y).freeNum ≤ (seg.sec pos).freeNum) :
    ∃ q₁ q₂, r₁ ++ r₂ = q₁ ++ q₂ ∧ Sorted seg (q₁ ++ pos :: q₂) ∧
      Settles (fun fuel => seek seg.moreSec (fun more => more == seg.last ||
        decide ((seg.sec pos).freeNum ≤ (seg.sec more).freeNum)) fuel (r₂.headD seg.last))
        (r₂.length + 1) (q₂.headD seg.last) := by
  obtain ⟨q₁, q₂, rfl, passed, found, settles⟩ := free.path.drop.seek_next
    (fun more => more == seg.last ||
      decide ((seg.sec pos).freeNum ≤ (seg.sec more).freeNum)) (by simp)
  have headless : seg.last ∉ q₂ := by
    have outside := (List.nodup_cons.mp free.nodup).1
    simp only [List.mem_append, not_or] at outside
    exact outside.2.2
  rw [← List.append_assoc] at sorted
  refine ⟨r₁ ++ q₁, q₂, (List.append_assoc r₁ q₁ q₂).symm, ?_, settles⟩
  apply sorted.insert
  · intro y member
    rcases List.mem_append.mp member with before | between
    · exact above y before
    · have larger := passed y between
      simp only [Bool.or_eq_false_iff, decide_eq_false_iff_not, not_le] at larger
      exact larger.2.le
  · apply Sorted.head_le (List.pairwise_append.mp sorted).2.1 _ headless
    intro other
    rw [beq_false_of_ne other, Bool.false_or] at found
    exact of_decide_eq_true found

/-- Putting a section in at the place that the loop of `mem_free` finds. -/
theorem FreeRing.place (pos : Int) (free : FreeRing seg (r₁ ++ r₂))
    (sorted : Sorted seg (r₁ ++ r₂))
    (above : ∀ y ∈ r₁, (seg.sec y).freeNum ≤ (seg.sec pos).freeNum)
    (fresh : pos ∉ seg.last :: (r₁ ++ r₂)) :
    ∃ seg' ring, Settles (fun fuel => place fuel seg pos (r₂.headD seg.last)) (r₂.length + 1) seg' ∧
      Relinked seg seg' ∧ FreeRing seg' ring ∧ Sorted seg' ring ∧
      List.Perm ring (pos :: (r₁ ++ r₂)) := by
  obtain ⟨q₁, q₂, split, inOrder, settles⟩ := free.seek_more pos sorted above
  rw [split] at free fresh
  have insertion := Relinked.insert seg (q₁.getLastD seg.last) pos (q₂.headD seg.last)
  refine ⟨_, q₁ ++ pos :: q₂, ?_, insertion, free.insert fresh, ?_, ?_⟩
  · have found := settles.map fun more => seg.insert (seg.lessSec more) pos more
    rw [free.path.joint.2] at found
    exact found
  · exact inOrder.congr fun c _ => insertion.freeNum c
  · rw [split]
    exact List.perm_middle

/-- Moving a section that now has less free space: the same sections, in order again. -/
theorem FreeRing.moveBack (free : FreeRing seg (r₁ ++ pos :: r₂)) (sorted : Sorted seg (r₁ ++ r₂))
    (below : ∀ y ∈ r₂, (seg.sec pos).freeNum ≤ (seg.sec y).freeNum) :
    ∃ seg' ring, Settles (fun fuel => moveBack fuel seg pos) (r₁.length + 1) seg' ∧
      Relinked seg seg' ∧ FreeRing seg' ring ∧ Sorted seg' ring ∧
      List.Perm ring (r₁ ++ pos :: r₂) := by
  let apart := (seg.unlink pos).modify pos fun s => { s with moreRel := 0, lessRel := 0 }
  have relinked : Relinked seg apart :=
    (Relinked.unlink seg pos).trans (Relinked.modify _ pos _ fun _ => rfl)
  have outside : pos ∉ seg.last :: (r₁ ++ r₂) := free.not_mem_around
  have rest : FreeRing apart (r₁ ++ r₂) := free.unlink.modify_outside _ outside
  obtain ⟨q₁, q₂, split, inOrder, settles⟩ :=
    rest.seek_less pos (sorted.congr fun c _ => relinked.freeNum c) (by
      intro y member
      rw [relinked.freeNum, relinked.freeNum]
      exact below y member)
  have joint : apart.moreSec (q₁.getLastD apart.last) = q₂.headD apart.last := by
    have path := rest.path
    rw [split] at path
    exact path.joint.1
  have start : r₁.getLastD apart.last = seg.lessSec pos := free.path.around.1.symm
  have insertion := Relinked.insert apart (q₁.getLastD apart.last) pos (q₂.headD apart.last)
  refine ⟨_, q₁ ++ pos :: q₂, ?_, relinked.trans insertion, ?_, ?_, ?_⟩
  · have found := settles.map fun less => apart.insert less pos (apart.moreSec less)
    rw [joint, start] at found
    exact found
  · rw [split] at rest outside
    exact rest.insert outside
  · exact inOrder.congr fun c _ => insertion.freeNum c
  · rw [List.perm_middle.congr_left, ← split]
    exact List.perm_middle.symm

end Dmm.Mem
