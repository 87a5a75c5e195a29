import Mathlib

/-!
# Walking over the elements of a shared pool

`nsfw_shmem_pool_create` fills one memory zone after another with elements, the first of which also
holds the ring. `nsfw_shmem_sp_iterator` finds the elements again from the lengths of the zones. Its
running index `start_idx` grows by the count of the zone it enters, not of the one it leaves, and
the lengths are cut to 32 bits.

A zone is given by the address behind its header (and the ring, in the first zone) and by the length
from there on.
-/

namespace Dmm.Mem.PoolIterator

/-- A memory zone: where its elements start and how many bytes there are for them. -/
structure Zone where
  base : Nat
  room : Nat
  deriving DecidableEq, Repr

/-! ## The pool -/

/-- `nsfw_shmem_pool_node_alloc`: the addresses it hands to the ring, at most `left` of them, after
`size` bytes. -/
def nodeAlloc (elt : Nat) (z : Zone) : (left size : Nat) → List Nat
  | 0, _ => []
  | left + 1, size =>
    if size + elt ≤ z.room then (z.base + size) :: nodeAlloc elt z left (size + elt) else []

/-- The loop of `nsfw_shmem_pool_create`, over the zones that are to be had: the zones of the pool
and the addresses of its elements by their index. -/
def poolCreate (elt : Nat) : (left : Nat) → List Zone → Option (List Zone × List Nat)
  | _, [] => none
  | left, z :: supply =>
    let xs := nodeAlloc elt z left 0
    if left ≤ xs.length then some ([z], xs)
    else (poolCreate elt (left - xs.length) supply).map fun (zs, ys) => (z :: zs, xs ++ ys)

/-! ## The iterator -/

/-- `elm_num`: the length is an `u32` here. -/
def elmNum (elt : Nat) (z : Zone) : Nat := z.room % 2 ^ 32 / elt

/-- The loop that skips zones, from a zone and its `start_idx`. -/
def skipLoop (elt start : Nat) (rest : List Zone) (z : Zone) (startIdx : Nat) :
    Option (List Zone × Zone × Nat) :=
  if (startIdx + elmNum elt z) % 2 ^ 32 < start then
    match rest with
    | [] => none
    | z' :: rest =>
      if elmNum elt z = 0 then none
      else skipLoop elt start rest z' ((startIdx + elmNum elt z') % 2 ^ 32)
  else some (rest, z, startIdx)

/-- The loop that calls the function, with the addresses it calls it for. -/
def callLoop (elt num stop : Nat) (rest : List Zone) (z : Zone) (startIdx curIdx : Nat) :
    List Nat :=
  if (curIdx + startIdx) % 2 ^ 32 < stop ∧ (curIdx + startIdx) % 2 ^ 32 < num then
    if elmNum elt z ≤ curIdx then
      match rest with
      | [] => []
      | z' :: rest =>
        if elmNum elt z = 0 then []
        else callLoop elt num stop rest z' ((startIdx + elmNum elt z') % 2 ^ 32) 0
    else (z.base + curIdx * elt) :: callLoop elt num stop rest z startIdx (curIdx + 1)
  else []
termination_by (rest.length, elmNum elt z - curIdx)

/-- Both loops, from a zone on. -/
def walkFrom (elt num start stop : Nat) (rest : List Zone) (z : Zone) (startIdx : Nat) : List Nat :=
  match skipLoop elt start rest z startIdx with
  | none => []
  | some (rest, z, startIdx) =>
    callLoop elt num stop rest z startIdx (((start : Int) - startIdx) % 2 ^ 32).toNat

/-- `nsfw_shmem_sp_iterator`: the addresses the function is called for; it returns how many. The
count of a ring of 2³¹ elements is negative as an `int`, and the first zone is then too short. -/
def spIterator (elt num : Nat) (zones : List Zone) (start stop : Nat) : List Nat :=
  if elt = 0 ∨ num ≤ start ∨ stop ≤ start ∨ 2 ^ 31 ≤ num then []
  else match zones with
    | [] => []
    | z :: rest => walkFrom elt num start stop rest z 0

/-- The iterator visits the elements with the indices asked for, in order. -/
def Covers (elt num : Nat) (zones : List Zone) (elements : List Nat) : Prop :=
  ∀ start stop, start < 2 ^ 32 → stop < 2 ^ 32 →
    spIterator elt num zones start stop = (elements.drop start).take (stop - start)

/-- The iterator knows the count of a zone with `left` elements to come. -/
def Sees (elt left : Nat) (rest : List Zone) (z : Zone) : Prop :=
  if rest = [] then left ≤ elmNum elt z else elmNum elt z = z.room / elt

/-- The later zones hold as many elements as the first, or one only after a zone that does. -/
def Even (elt first : Nat) : (full : Bool) → (left : Nat) → List Zone → Prop
  | _, _, [] => True
  | full, left, z :: rest => Sees elt left rest z ∧
    ((elmNum elt z = first ∧ Even elt first true (left - first) rest) ∨
      (full ∧ elmNum elt z = 1 ∧ first ≠ 1 ∧ Even elt first false (left - 1) rest))

/-- The pools the iterator covers. -/
def Fits (elt num : Nat) : List Zone → Prop
  | [] => True
  | z :: rest => elt ≠ 0 ∧ num < 2 ^ 31 ∧ Sees elt num rest z ∧
    (rest ≠ [] → elmNum elt z ≠ 0) ∧ Even elt (elmNum elt z) true (num - elmNum elt z) rest

/-! ## The layout of a pool -/

/-- The first addresses of a zone. -/
def slots (elt : Nat) (z : Zone) (n : Nat) : List Nat :=
  (List.range n).map fun i => z.base + i * elt

/-- The elements over the zones of a pool: each zone but the last is full. -/
inductive Layout (elt : Nat) : Nat → Zone → List Zone → List Nat → Prop
  | last {left z} : left ≤ z.room / elt → Layout elt left z [] (slots elt z left)
  | more {left z z' rest ys} : z.room / elt < left → Layout elt (left - z.room / elt) z' rest ys →
      Layout elt left z (z' :: rest) (slots elt z (z.room / elt) ++ ys)

variable {elt num left stop start : Nat} {z z' : Zone} {rest : List Zone} {ys : List Nat}

@[simp] theorem length_slots (elt : Nat) (z : Zone) (n : Nat) : (slots elt z n).length = n := by
  simp [slots]

theorem drop_slots_append {n c : Nat} (past : n ≤ c) :
    (slots elt z n ++ ys).drop c = ys.drop (c - n) := by
  rw [List.drop_append, List.drop_eq_nil_of_le (by simpa using past), List.nil_append, length_slots]

theorem nodeAlloc_eq (positive : 0 < elt) (left s : Nat) :
    nodeAlloc elt z left (s * elt) =
      (List.range' s (min left (z.room / elt - s))).map fun i => z.base + i * elt := by
  induction left generalizing s with
  | zero => simp [nodeAlloc]
  | succ left ih =>
    have fits : s * elt + elt ≤ z.room ↔ s < z.room / elt := by
      rw [← Nat.succ_mul, ← Nat.le_div_iff_mul_le positive]
      exact Iff.rfl
    rw [nodeAlloc]
    by_cases inside : s < z.room / elt
    · rw [if_pos (fits.mpr inside), ← Nat.succ_mul, ih,
        show min (left + 1) (z.room / elt - s) = min left (z.room / elt - (s + 1)) + 1 by omega,
        List.range'_succ, List.map_cons]
    · rw [if_neg (mt fits.mp inside), show z.room / elt - s = 0 by omega]
      simp

theorem nodeAlloc_zero (positive : 0 < elt) (left : Nat) :
    nodeAlloc elt z left 0 = slots elt z (min left (z.room / elt)) := by
  have filled := nodeAlloc_eq (z := z) positive left 0
  rwa [Nat.zero_mul, Nat.sub_zero, ← List.range_eq_range'] at filled

theorem layout_of_create (positive : 0 < elt) {supply zones : List Zone}
    (created : poolCreate elt left supply = some (zones, ys)) :
    ∃ z rest, zones = z :: rest ∧ Layout elt left z rest ys := by
  induction supply generalizing left zones ys with
  | nil => cases created
  | cons z supply ih =>
    rw [poolCreate, nodeAlloc_zero positive] at created
    simp only [length_slots] at created
    split at created
    · cases created
      refine ⟨z, [], rfl, ?_⟩
      rw [show min left (z.room / elt) = left by omega]
      exact .last (by omega)
    · rw [show min left (z.room / elt) = z.room / elt by omega] at created
      obtain ⟨⟨zs, ys'⟩, made, eq⟩ := Option.map_eq_some_iff.mp created
      obtain ⟨z', rest, rfl, layout⟩ := ih made
      cases eq
      exact ⟨z, _, rfl, .more (by omega) layout⟩

theorem Layout.length_eq (layout : Layout elt left z rest ys) : ys.length = left := by
  induction layout with
  | last => exact length_slots ..
  | more below _ ih =>
    rw [List.length_append, length_slots, ih]
    omega

theorem slots_part (n c m : Nat) : ((slots elt z n).drop c).take m =
    (List.range' c (min m (n - c))).map fun i => z.base + i * elt := by
  have part : (List.range' c (n - c)).take m = List.range' c (min m (n - c)) :=
    List.ext_getElem (by simp) (by simp)
  rw [slots, List.range_eq_range', ← List.map_drop, ← List.map_take, List.drop_range', Nat.zero_add,
    Nat.mul_one, part]

/-! ## One zone -/

/-- Where the calling loop goes at the end of a zone. -/
def onward (elt num stop : Nat) (rest : List Zone) (z : Zone) (startIdx : Nat) : List Nat :=
  match rest with
  | [] => []
  | z' :: rest =>
    if elmNum elt z = 0 then []
    else callLoop elt num stop rest z' ((startIdx + elmNum elt z') % 2 ^ 32) 0

/-- The calling loop in one zone. -/
theorem callLoop_zone {s : Nat} (low : s + elmNum elt z < 2 ^ 32) :
    ∀ d cur, cur + d = elmNum elt z → callLoop elt num stop rest z s cur =
      ((List.range' cur (min (elmNum elt z) (min stop num - s) - cur)).map
        fun i => z.base + i * elt) ++
      if s + elmNum elt z < stop ∧ s + elmNum elt z < num then onward elt num stop rest z s
      else [] := by
  intro d
  induction d with
  | zero =>
    intro cur arrived
    have none : min (elmNum elt z) (min stop num - s) - cur = 0 := by omega
    rw [callLoop.eq_def, none, Nat.mod_eq_of_lt (by omega : cur + s < 2 ^ 32),
      show cur + s = s + elmNum elt z by omega, if_pos (by omega : elmNum elt z ≤ cur)]
    simp only [List.range'_zero, List.map_nil, List.nil_append, onward]
  | succ d ih =>
    intro cur distance
    have next := ih (cur + 1) (by omega)
    rw [callLoop.eq_def, Nat.mod_eq_of_lt (by omega : cur + s < 2 ^ 32)]
    by_cases goes : cur + s < stop ∧ cur + s < num
    · rw [if_pos goes, if_neg (by omega), next,
        show min (elmNum elt z) (min stop num - s) - cur =
          min (elmNum elt z) (min stop num - s) - (cur + 1) + 1 by omega,
        List.range'_succ, List.map_cons, List.cons_append]
    · rw [if_neg goes, if_neg (by omega),
        show min (elmNum elt z) (min stop num - s) - cur = 0 by omega]
      rfl

theorem walkFrom_next {s : Nat} (beyond : (s + elmNum elt z) % 2 ^ 32 < start)
    (some : elmNum elt z ≠ 0) : walkFrom elt num start stop (z' :: rest) z s =
      walkFrom elt num start stop rest z' ((s + elmNum elt z') % 2 ^ 32) := by
  rw [walkFrom, skipLoop.eq_def, if_pos beyond]
  simp only [if_neg some]
  rfl

theorem walkFrom_here {s : Nat} (inside : start ≤ (s + elmNum elt z) % 2 ^ 32) (after : s ≤ start)
    (low : start < 2 ^ 32) :
    walkFrom elt num start stop rest z s = callLoop elt num stop rest z s (start - s) := by
  have cur : (((start : Int) - s) % 2 ^ 32).toNat = start - s := by omega
  rw [walkFrom, skipLoop.eq_def, if_neg (by omega)]
  simp only [cur]

/-! ## Even pools are covered -/

/-- The next zone does not hold more than the ones before when there is one. -/
theorem Sees.elmNum_eq (sees : Sees elt left (z' :: rest) z) : elmNum elt z = z.room / elt := by
  simpa [Sees] using sees

/-- The calling loop in an even pool, from a zone that starts at its true index `b` or, if it holds
one element only, at the lower index `s`. -/
theorem callLoop_even {first : Nat} (small : num < 2 ^ 31) (some : rest ≠ [] → first ≠ 0)
    (below : rest ≠ [] → first < 2 ^ 31) (layout : Layout elt left z rest ys) :
    (∀ b cur, b + left = num → b + elmNum elt z < 2 ^ 32 → elmNum elt z = first →
      Sees elt left rest z → Even elt first true (left - first) rest → cur ≤ elmNum elt z →
      callLoop elt num stop rest z b cur = (ys.drop cur).take (stop - (b + cur))) ∧
    (∀ b s, b + left = num → elmNum elt z = 1 → 1 < first → s + first = b + 1 →
      Sees elt left rest z → Even elt first false (left - 1) rest → b < stop → 0 < left →
      callLoop elt num stop rest z s 0 = ys.take (stop - b)) := by
  induction layout with
  | @last left z room =>
    constructor
    · intro b cur total low count sees even inside
      have sees : left ≤ elmNum elt z := by simpa [Sees] using sees
      rw [callLoop_zone low (elmNum elt z - cur) cur (by omega), slots_part]
      simp only [onward, ite_self, List.append_nil]
      congr 2
      omega
    · intro b s total count many index sees even before positive
      have sees : left ≤ elmNum elt z := by simpa [Sees] using sees
      have one : left = 1 := by omega
      rw [callLoop_zone (by omega) (elmNum elt z) 0 (by omega), ← List.drop_zero (l := slots ..),
        slots_part]
      simp only [onward, ite_self, List.append_nil]
      congr 2
      omega
  | @more left z z' rest ys room layout ih =>
    obtain ⟨full, short⟩ := ih (fun _ => some (by simp)) (fun _ => below (by simp))
    have zero := some (by simp)
    have low' := below (by simp)
    have rest_pos : 0 < left - z.room / elt := by omega
    -- both kinds of zones are followed by the elements of the next one
    have tail : ∀ b s, b + left = num → elmNum elt z = z.room / elt → s ≤ b →
        (s = b → elmNum elt z = first) → (s ≠ b → elmNum elt z = 1 ∧ s + first = b + 1) →
        Even elt first (s = b) (left - elmNum elt z) (z' :: rest) → b + elmNum elt z < stop →
        callLoop elt num stop rest z' ((s + elmNum elt z') % 2 ^ 32) 0 =
          ys.take (stop - (b + elmNum elt z)) := by
      intro b s total count le same other even before
      obtain ⟨sees, ⟨whole, even⟩ | ⟨after, one, apart, even⟩⟩ := even
      · have next : (s + elmNum elt z') % 2 ^ 32 = b + elmNum elt z := by
          rw [whole]
          omega
        rw [next, full _ 0 (by omega) (by omega) whole (count ▸ sees) (count ▸ even) (by omega)]
        simp
      · have here : s = b := by simpa using after
        have next : (s + elmNum elt z') % 2 ^ 32 = b + 1 := by omega
        rw [next]
        exact short (b + elmNum elt z) (b + 1) (by omega) one (by omega) (by omega) (count ▸ sees)
          (count ▸ even) before rest_pos
    constructor
    · intro b cur total low count sees even inside
      have known := sees.elmNum_eq
      rw [callLoop_zone low (elmNum elt z - cur) cur (by omega), List.drop_append,
        List.take_append, slots_part]
      have skipped : cur - z.room / elt = 0 := by omega
      rw [List.length_drop, length_slots, skipped, List.drop_zero, ← known]
      congr 1
      · congr 2
        omega
      · by_cases goes : b + elmNum elt z < stop
        · rw [if_pos ⟨goes, by omega⟩, onward, if_neg (by omega)]
          rw [tail b b total known (Nat.le_refl b) (fun _ => count) (by simp)
            (by simpa [count] using even)
            goes]
          congr 1
          omega
        · rw [if_neg (by omega), show stop - (b + cur) - (elmNum elt z - cur) = 0 by omega]
          rfl
    · intro b s total count many index sees even before positive
      have known := sees.elmNum_eq
      rw [callLoop_zone (by omega) (elmNum elt z) 0 (by omega), List.take_append,
        ← List.drop_zero (l := slots ..), slots_part]
      rw [List.length_drop, length_slots, Nat.sub_zero, ← known, count]
      congr 1
      · congr 2
        omega
      · rw [if_pos ⟨by omega, by omega⟩, onward, if_neg (by omega)]
        by_cases goes : b + elmNum elt z < stop
        · rw [tail b s total known (by omega) (by omega) (fun _ => ⟨count, index⟩)
            (by rw [count, decide_eq_false (by omega)]; exact even) goes]
          congr 1
          omega
        · have next : (s + elmNum elt z') % 2 ^ 32 = b + 1 := by
            obtain ⟨-, ⟨whole, -⟩ | ⟨after, -⟩⟩ := even
            · omega
            · cases after
          rw [next, show stop - b - 1 = 0 by omega, callLoop.eq_def,
            Nat.mod_eq_of_lt (by omega), if_neg (by omega)]
          rfl

/-- Both loops in an even pool, from a zone at its true index, or from a later index in one that
holds one element only. -/
theorem walkFrom_even {first : Nat} (small : num < 2 ^ 31) (some : rest ≠ [] → first ≠ 0)
    (below : rest ≠ [] → first < 2 ^ 31) (inRange : start < num)
    (layout : Layout elt left z rest ys) :
    (∀ b, b + left = num → b + elmNum elt z < 2 ^ 32 → elmNum elt z = first →
      Sees elt left rest z → Even elt first true (left - first) rest → b ≤ start →
      walkFrom elt num start stop rest z b = (ys.drop (start - b)).take (stop - start)) ∧
    (∀ b s, b + left = num → elmNum elt z = 1 → 1 < first → s + first = b + 1 →
      Sees elt left rest z → Even elt first false (left - 1) rest → b < start →
      walkFrom elt num start stop rest z s = (ys.drop (start - b)).take (stop - start)) := by
  induction layout with
  | @last left z room =>
    constructor
    · intro b total low count sees even after
      have within : left ≤ elmNum elt z := by simpa [Sees] using sees
      rw [walkFrom_here (by omega) after (by omega),
        (callLoop_even small some below (.last room)).1 b (start - b) total low count sees even
          (by omega), show b + (start - b) = start by omega]
    · intro b s total count many index sees even after
      have within : left ≤ elmNum elt z := by simpa [Sees] using sees
      omega
  | @more left z z' rest ys room layout ih =>
    obtain ⟨full, short⟩ := ih (fun _ => some (by simp)) (fun _ => below (by simp))
    have zero := some (by simp)
    have low' := below (by simp)
    constructor
    · intro b total low count sees even after
      have known := sees.elmNum_eq
      by_cases inside : start ≤ b + elmNum elt z
      · rw [walkFrom_here (by omega) after (by omega),
          (callLoop_even small some below (.more room layout)).1 b (start - b) total low count sees
            even (by omega), show b + (start - b) = start by omega]
      · rw [walkFrom_next (by omega) (by omega), drop_slots_append (by omega), ← known,
          show start - b - elmNum elt z = start - (b + elmNum elt z) by omega]
        obtain ⟨sees', ⟨whole, even⟩ | ⟨-, one, apart, even⟩⟩ := even
        · rw [show (b + elmNum elt z') % 2 ^ 32 = b + elmNum elt z by omega]
          exact full _ (by omega) (by omega) whole (known ▸ count ▸ sees') (known ▸ count ▸ even)
            (by omega)
        · rw [show (b + elmNum elt z') % 2 ^ 32 = b + 1 by omega]
          exact short _ _ (by omega) one (by omega) (by omega) (known ▸ count ▸ sees')
            (known ▸ count ▸ even) (by omega)
    · intro b s total count many index sees even after
      have known := sees.elmNum_eq
      have one : z.room / elt = 1 := by omega
      obtain ⟨sees', ⟨whole, even⟩ | ⟨after, -⟩⟩ := even
      · rw [walkFrom_next (by omega) (by omega), drop_slots_append (by omega), one,
          show start - b - 1 = start - (b + 1) by omega,
          show (s + elmNum elt z') % 2 ^ 32 = b + 1 by omega]
        exact full _ (by omega) (by omega) whole (one ▸ sees') (one ▸ even) (by omega)
      · cases after

/-! ## Covered pools are even -/

/-- Zones do not overlap. -/
def Apart (elt : Nat) (z z' : Zone) : Prop :=
  ∀ i < z.room / elt, ∀ j < z'.room / elt, z.base + i * elt ≠ z'.base + j * elt

/-- An address is that of an element of one of the zones. -/
def Among (elt : Nat) (zones : List Zone) (a : Nat) : Prop :=
  ∃ y ∈ zones, ∃ i < elmNum elt y, a = y.base + i * elt

theorem elmNum_le (elt : Nat) (z : Zone) : elmNum elt z ≤ z.room / elt :=
  Nat.div_le_div_right (Nat.mod_le _ _)

theorem elmNum_lt (elt : Nat) (z : Zone) : elmNum elt z < 2 ^ 32 :=
  Nat.lt_of_le_of_lt (Nat.div_le_self _ _) (Nat.mod_lt _ (by decide))

/-- The calling loop stays in its zone from its index on, or goes to later ones. -/
theorem callLoop_mem {s cur a : Nat} (called : a ∈ callLoop elt num stop rest z s cur) :
    (∃ i, cur ≤ i ∧ i < elmNum elt z ∧ a = z.base + i * elt) ∨ Among elt rest a := by
  fun_induction callLoop elt num stop rest z s cur with
  | case1 | case2 | case5 => simp at called
  | case3 z s cur goes past z' rest some ih =>
    refine .inr ?_
    obtain ⟨i, -, inside, rfl⟩ | ⟨y, member, i, inside, rfl⟩ := ih called
    · exact ⟨z', by simp, i, inside, rfl⟩
    · exact ⟨y, by simp [member], i, inside, rfl⟩
  | case4 rest z s cur goes inside ih =>
    obtain rfl | later := List.mem_cons.mp called
    · exact .inl ⟨cur, Nat.le_refl _, by omega, rfl⟩
    · obtain ⟨i, after, below, rfl⟩ | among := ih later
      · exact .inl ⟨i, by omega, below, rfl⟩
      · exact .inr among

/-- Both loops stay in their zones. -/
theorem walkFrom_mem {s a : Nat} (called : a ∈ walkFrom elt num start stop rest z s) :
    Among elt (z :: rest) a := by
  induction rest generalizing z s with
  | nil =>
    rw [walkFrom, skipLoop.eq_def] at called
    split at called
    · simp at called
    · rename_i found
      split at found
      · cases found
      · cases found
        obtain ⟨i, -, inside, rfl⟩ | ⟨y, member, -⟩ := callLoop_mem called
        · exact ⟨z, by simp, i, inside, rfl⟩
        · simp at member
  | cons z' rest ih =>
    by_cases beyond : (s + elmNum elt z) % 2 ^ 32 < start
    · by_cases none : elmNum elt z = 0
      · simp [walkFrom, skipLoop.eq_def, none] at called
        simp_all
      · rw [walkFrom_next beyond none] at called
        obtain ⟨y, member, rest⟩ := ih called
        exact ⟨y, List.mem_cons_of_mem _ member, rest⟩
    · rw [walkFrom, skipLoop.eq_def, if_neg beyond] at called
      obtain ⟨i, -, inside, rfl⟩ | ⟨y, member, rest⟩ := callLoop_mem called
      · exact ⟨z, by simp, i, inside, rfl⟩
      · exact ⟨y, List.mem_cons_of_mem _ member, rest⟩

/-- Past the end of a zone only later zones are visited. -/
theorem walkFrom_past {s a : Nat} (low : start < 2 ^ 32) (after : s ≤ start)
    (past : (s + elmNum elt z) % 2 ^ 32 < start ∨ start = s + elmNum elt z)
    (called : a ∈ walkFrom elt num start stop rest z s) : Among elt rest a := by
  obtain past | past := past
  · cases rest with
    | nil =>
      rw [walkFrom, skipLoop.eq_def, if_pos past] at called
      cases called
    | cons z' rest =>
      by_cases none : elmNum elt z = 0
      · rw [walkFrom, skipLoop.eq_def, if_pos past] at called
        simp [none] at called
      · rw [walkFrom_next past none] at called
        exact walkFrom_mem called
  · rw [walkFrom_here (by omega) after low] at called
    obtain ⟨i, inside, below, -⟩ | among := callLoop_mem called
    · omega
    · exact among

theorem Layout.getElem? (layout : Layout elt left z rest ys) {n : Nat} (inside : n < left)
    (room : n < z.room / elt) : ys[n]? = some (z.base + n * elt) := by
  cases layout with
  | last => simp [slots, inside]
  | more below layout =>
    rw [List.getElem?_append_left (by simpa [slots] using room)]
    simp [slots, room]

theorem Layout.not_among (apart : (z :: rest).Pairwise (Apart elt)) {n : Nat}
    (room : n < z.room / elt) : ¬ Among elt rest (z.base + n * elt) := by
  rintro ⟨y, member, i, inside, same⟩
  exact (List.pairwise_cons.mp apart).1 y member n room i
    (Nat.lt_of_lt_of_le inside (elmNum_le elt y)) same

/-- What a covered pool says about a zone: the calls from its start and the walks from `lo` on,
where `b` is the true index of its first element and `s` the index the iterator has. -/
structure Good (elt num : Nat) (z : Zone) (rest : List Zone) (ys : List Nat) (b s lo : Nat) :
    Prop where
  calls : ∀ stop, b < stop → stop < 2 ^ 32 →
    callLoop elt num stop rest z s 0 = ys.take (stop - b)
  walks : ∀ start stop, lo ≤ start → start < num → start < stop → stop < 2 ^ 32 →
    walkFrom elt num start stop rest z s = (ys.drop (start - b)).take (stop - start)

/-- A zone whose end is walked from has the count it is taken to have. -/
theorem Good.sees {b s lo : Nat} (good : Good elt num z rest ys b s lo)
    (layout : Layout elt left z rest ys) (apart : (z :: rest).Pairwise (Apart elt))
    (total : b + left = num) (small : num < 2 ^ 31) (above : lo ≤ b + elmNum elt z) (after : s ≤ b)
    (past : s = b ∨ (s + elmNum elt z) % 2 ^ 32 < b + elmNum elt z) : Sees elt left rest z := by
  -- an element that the count leaves out would have to be found in a later zone
  have out (inside : elmNum elt z < left) : ¬ elmNum elt z < z.room / elt := by
    intro room
    have walked := good.walks _ (b + elmNum elt z + 1) above (by omega) (by omega) (by omega)
    have member : z.base + elmNum elt z * elt ∈
        walkFrom elt num (b + elmNum elt z) (b + elmNum elt z + 1) rest z s := by
      rw [walked]
      refine List.mem_of_getElem? (i := 0) ?_
      simpa using layout.getElem? inside room
    exact Layout.not_among apart room (walkFrom_past (by omega) (by omega) (by omega) member)
  have le := elmNum_le elt z
  unfold Sees
  cases layout with
  | last room =>
    rw [if_pos rfl]
    by_contra short
    exact out (by omega) (by omega)
  | more room _ =>
    rw [if_neg (by simp)]
    by_contra short
    exact out (by omega) (by omega)

/-- What the calls for the first element of a zone say about its count. -/
theorem Good.count {b s lo : Nat} (good : Good elt num z rest ys b s lo) (total : b + left = num)
    (some : 0 < left) (low : s < 2 ^ 32) (long : ys.length = left) (small : num < 2 ^ 31) :
    s ≤ b ∧ 1 ≤ elmNum elt z ∧ (s = b ∨ elmNum elt z = 1) := by
  have one : (callLoop elt num (b + 1) rest z s 0).length = 1 := by
    rw [good.calls (b + 1) (by omega) (by omega), List.length_take]
    omega
  rw [callLoop.eq_def, Nat.zero_add, Nat.mod_eq_of_lt low] at one
  by_cases before : s < b + 1 ∧ s < num
  · rw [if_pos before] at one
    by_cases none : elmNum elt z = 0
    · rw [if_pos (by omega)] at one
      cases rest <;> simp [none] at one
    · rw [if_neg (by omega), callLoop.eq_def, Nat.mod_eq_of_lt (by omega)] at one
      by_cases more : s = b ∨ elmNum elt z = 1
      · exact ⟨by omega, by omega, more⟩
      · rw [if_pos (by omega), if_neg (by omega)] at one
        simp at one
  · rw [if_neg before] at one
    simp at one

theorem Good.walks_next {b s lo : Nat}
    (good : Good elt num z (z' :: rest) (slots elt z left ++ ys) b s lo)
    (some : elmNum elt z ≠ 0) {lo' : Nat} (above : lo ≤ lo') (past : b + left ≤ lo')
    (skips : ∀ start, lo' ≤ start → start < num → (s + elmNum elt z) % 2 ^ 32 < start) :
    ∀ start stop, lo' ≤ start → start < num → start < stop → stop < 2 ^ 32 →
      walkFrom elt num start stop rest z' ((s + elmNum elt z') % 2 ^ 32) =
        (ys.drop (start - (b + left))).take (stop - start) := by
  intro start stop from_ inRange before low
  have walked := good.walks start stop (by omega) inRange before low
  rwa [walkFrom_next (skips start from_ inRange) some, drop_slots_append (by omega),
    Nat.sub_sub] at walked

/-- Good zones are even. -/
theorem even_of_good {first : Nat} (small : num < 2 ^ 31) (layout : Layout elt left z rest ys)
    (apart : (z :: rest).Pairwise (Apart elt)) {b : Nat} (total : b + left = num)
    (some : 0 < left) :
    (∀ lo, Good elt num z rest ys b b lo → elmNum elt z = first → lo ≤ b + first →
      Sees elt left rest z ∧ (rest ≠ [] → first ≠ 0) ∧ Even elt first true (left - first) rest) ∧
    (∀ s, Good elt num z rest ys b s (b + 1) → elmNum elt z = 1 → 1 < first → s + first = b + 1 →
      Sees elt left rest z ∧ Even elt first false (left - 1) rest) := by
  induction layout generalizing b with
  | @last left z room =>
    constructor
    · intro lo good count above
      exact ⟨good.sees (.last room) apart total small (by omega) (Nat.le_refl b) (.inl rfl),
        by simp,
        trivial⟩
    · intro s good count many index
      exact ⟨good.sees (.last room) apart total small (by omega) (by omega) (by omega), trivial⟩
  | @more left z z' rest ys room layout ih =>
    have apart' := (List.pairwise_cons.mp apart).2
    have long := layout.length_eq
    have lt' := elmNum_lt elt z'
    constructor
    · intro lo good count above
      have sees := good.sees (.more room layout) apart total small (by omega) (Nat.le_refl b)
        (.inl rfl)
      have known := sees.elmNum_eq
      have size : z.room / elt = first := by omega
      -- the calls from the end of the zone are those from the start of the next
      have onwards : ∀ stop, b + first < stop → stop < 2 ^ 32 →
          onward elt num stop (z' :: rest) z b = ys.take (stop - (b + first)) := by
        intro stop before low
        have walked := good.walks (b + first) stop above (by omega) before low
        rw [walkFrom_here (by omega) (by omega) (by omega),
          callLoop_zone (by omega) 0 _ (by omega), if_pos ⟨by omega, by omega⟩,
          drop_slots_append (by omega), show b + first - b - z.room / elt = 0 by omega,
          show min (elmNum elt z) (min stop num - b) - (b + first - b) = 0 by omega] at walked
        simpa using walked
      have nonzero : first ≠ 0 := by
        intro zero
        have empty := onwards (b + first + 1) (by omega) (by omega)
        rw [onward, if_pos (by omega)] at empty
        have length := congrArg List.length empty
        rw [List.length_take] at length
        simp at length
        omega
      have good' : Good elt num z' rest ys (b + z.room / elt) ((b + elmNum elt z') % 2 ^ 32)
          (b + z.room / elt + 1) := by
        refine ⟨fun stop before low => ?_, ?_⟩
        · have calls := onwards stop (by omega) low
          rwa [onward, if_neg (by omega), ← size] at calls
        · exact good.walks_next (by omega) (by omega) (by omega) fun start from_ inRange => by omega
      obtain ⟨le, one, which⟩ :=
        good'.count (by omega) (by omega) (Nat.mod_lt _ (by decide)) long small
      obtain ⟨full, short⟩ := ih apart' (b := b + z.room / elt) (by omega) (by omega)
      refine ⟨sees, fun _ => nonzero, ?_⟩
      by_cases same : (b + elmNum elt z') % 2 ^ 32 = b + z.room / elt
      · have whole : elmNum elt z' = first := by omega
        rw [same] at good'
        obtain ⟨sees', -, even⟩ := full _ good' whole (by omega)
        exact ⟨size ▸ sees', .inl ⟨whole, size ▸ even⟩⟩
      · have single : elmNum elt z' = 1 := by omega
        obtain ⟨sees', even⟩ := short _ good' single (by omega) (by omega)
        exact ⟨size ▸ sees', .inr ⟨rfl, single, by omega, size ▸ even⟩⟩
    · intro s good count many index
      have sees := good.sees (.more room layout) apart total small (by omega) (by omega) (by omega)
      have known := sees.elmNum_eq
      have size : z.room / elt = 1 := by omega
      have good' : Good elt num z' rest ys (b + z.room / elt) ((s + elmNum elt z') % 2 ^ 32)
          (b + 1) := by
        refine ⟨fun stop before low => ?_, ?_⟩
        · have calls := good.calls stop (by omega) low
          rw [callLoop_zone (by omega) (elmNum elt z) 0 (by omega),
            if_pos ⟨by omega, by omega⟩, onward,
            if_neg (by omega), show min (elmNum elt z) (min stop num - s) - 0 = 1 by omega,
            show slots elt z (z.room / elt) = [z.base + 0 * elt] by simp [slots, size],
            show stop - b = stop - (b + z.room / elt) + 1 by omega] at calls
          simpa using calls
        · exact good.walks_next (by omega) (by omega) (by omega) fun start from_ inRange => by omega
      obtain ⟨le, one, which⟩ :=
        good'.count (by omega) (by omega) (Nat.mod_lt _ (by decide)) long small
      obtain ⟨full, -⟩ := ih apart' (b := b + z.room / elt) (by omega) (by omega)
      by_cases same : (s + elmNum elt z') % 2 ^ 32 = b + z.room / elt
      · have whole : elmNum elt z' = first := by omega
        rw [same] at good'
        obtain ⟨sees', -, even⟩ := full _ good' whole (by omega)
        exact ⟨sees, size ▸ sees', .inl ⟨whole, size ▸ even⟩⟩
      · -- the single element of the next zone would be passed over
        exfalso
        have single : elmNum elt z' = 1 := by omega
        have walked := good'.walks (b + 1) (b + 1 + 1) (Nat.le_refl _) (by omega) (by omega)
          (by omega)
        have held : z'.base + 0 * elt ∈ walkFrom elt num (b + 1) (b + 1 + 1) rest z'
            ((s + elmNum elt z') % 2 ^ 32) := by
          rw [walked]
          refine List.mem_of_getElem? (i := 0) ?_
          have first := layout.getElem? (n := 0) (by omega)
            (Nat.lt_of_lt_of_le (by omega) (elmNum_le elt z'))
          rw [List.getElem?_take_of_lt (by omega), List.getElem?_drop,
            show b + 1 - (b + z.room / elt) + 0 = 0 by omega]
          exact first
        refine Layout.not_among apart' (n := 0)
          (Nat.lt_of_lt_of_le (by omega) (elmNum_le elt z')) ?_
        exact walkFrom_past (by omega) (by omega) (by omega) held

/-! ## The iterator -/

theorem length_nodeAlloc_le (elt : Nat) (z : Zone) (left size : Nat) :
    (nodeAlloc elt z left size).length ≤ left := by
  induction left generalizing size with
  | zero => simp [nodeAlloc]
  | succ left ih =>
    rw [nodeAlloc]
    split
    · simpa using ih (size + elt)
    · simp

theorem length_of_create {supply zones : List Zone}
    (created : poolCreate elt left supply = some (zones, ys)) : ys.length = left := by
  induction supply generalizing left zones ys with
  | nil => cases created
  | cons z supply ih =>
    have le := length_nodeAlloc_le elt z left 0
    rw [poolCreate] at created
    split at created
    · cases created
      omega
    · obtain ⟨⟨zs, ys'⟩, made, eq⟩ := Option.map_eq_some_iff.mp created
      cases eq
      have := ih made
      rw [List.length_append]
      omega

/-- The iterator covers a pool exactly when it knows the counts of the zones, the ring has less than
2³¹ elements and the later zones hold as many elements as the first, or one after one that does. -/
theorem iterator_covers_iff {supply zones : List Zone} {elements : List Nat}
    (created : poolCreate elt num supply = some (zones, elements)) (some : 0 < num)
    (apart : zones.Pairwise (Apart elt)) :
    Covers elt num zones elements ↔ Fits elt num zones := by
  have long := length_of_create created
  constructor
  · intro covers
    have one := covers 0 1 (by decide) (by decide)
    have regular : elt ≠ 0 ∧ num < 2 ^ 31 := by
      by_contra odd
      rw [spIterator.eq_def, if_pos (by omega)] at one
      have length := congrArg List.length one
      simp only [List.drop_zero, Nat.sub_zero, List.length_take, List.length_nil] at length
      omega
    obtain ⟨z, rest, rfl, layout⟩ := layout_of_create (Nat.pos_of_ne_zero regular.1) created
    have walks : ∀ start stop, 0 ≤ start → start < num → start < stop → stop < 2 ^ 32 →
        walkFrom elt num start stop rest z 0 = (elements.drop (start - 0)).take (stop - start) := by
      intro start stop _ inRange before low
      have covered := covers start stop (by omega) low
      rwa [spIterator, if_neg (by omega)] at covered
    have good : Good elt num z rest elements 0 0 0 := by
      refine ⟨fun stop before low => ?_, walks⟩
      have walked := walks 0 stop (Nat.le_refl _) some before low
      rwa [walkFrom_here (Nat.zero_le _) (Nat.le_refl _) (by decide)] at walked
    obtain ⟨sees, nonzero, even⟩ :=
      (even_of_good regular.2 layout apart (Nat.zero_add _) some).1 0 good rfl (Nat.zero_le _)
    exact ⟨regular.1, regular.2, sees, nonzero, even⟩
  · intro fits start stop low low'
    cases zones with
    | nil =>
      exfalso
      cases supply with
      | nil => cases created
      | cons z supply =>
        rw [poolCreate] at created
        split at created
        · cases created
        · obtain ⟨⟨zs, ys'⟩, -, eq⟩ := Option.map_eq_some_iff.mp created
          cases eq
    | cons z rest =>
      obtain ⟨positive, small, sees, nonzero, even⟩ := fits
      obtain ⟨z₀, rest₀, same, layout⟩ := layout_of_create (Nat.pos_of_ne_zero positive) created
      cases same
      rw [spIterator]
      by_cases idle : elt = 0 ∨ num ≤ start ∨ stop ≤ start ∨ 2 ^ 31 ≤ num
      · rw [if_pos idle]
        obtain outside | none : num ≤ start ∨ stop - start = 0 := by omega
        · rw [List.drop_eq_nil_of_le (by omega), List.take_nil]
        · rw [none, List.take_zero]
      · rw [if_neg idle]
        have below : rest ≠ [] → elmNum elt z < 2 ^ 31 := by
          intro more
          have le := elmNum_le elt z
          cases layout with
          | last => exact absurd rfl more
          | more room _ => omega
        have walked : walkFrom elt num start stop rest z 0 = _ :=
          (walkFrom_even small nonzero below (by omega) layout).1 0 (Nat.zero_add _)
            (by simpa using elmNum_lt elt z) rfl sees even (Nat.zero_le start)
        simpa using walked

/-- Two zones of two elements each are covered. -/
theorem iterator_covers_two_zones :
    poolCreate 1 4 [⟨100, 2⟩, ⟨200, 2⟩] = some ([⟨100, 2⟩, ⟨200, 2⟩], [100, 101, 200, 201]) ∧
      Covers 1 4 [⟨100, 2⟩, ⟨200, 2⟩] [100, 101, 200, 201] := by
  have created : poolCreate 1 4 [⟨100, 2⟩, ⟨200, 2⟩] =
    some ([⟨100, 2⟩, ⟨200, 2⟩], [100, 101, 200, 201]) := by decide
  refine ⟨created, (iterator_covers_iff created (by decide) ?_).mpr ?_⟩
  · simp [Apart]
    omega
  · simp [Fits, Sees, Even, elmNum]

/-- With one element in the first zone and three in the second, two are left out. -/
theorem iterator_leaves_out :
    poolCreate 1 4 [⟨100, 1⟩, ⟨200, 3⟩] = some ([⟨100, 1⟩, ⟨200, 3⟩], [100, 200, 201, 202]) ∧
      spIterator 1 4 [⟨100, 1⟩, ⟨200, 3⟩] 0 4 = [100, 200] ∧
      ¬ Covers 1 4 [⟨100, 1⟩, ⟨200, 3⟩] [100, 200, 201, 202] := by
  have called : spIterator 1 4 [⟨100, 1⟩, ⟨200, 3⟩] 0 4 = [100, 200] := by
    simp [spIterator, walkFrom, skipLoop.eq_def, callLoop.eq_def, elmNum]
  refine ⟨by decide, called, fun covers => ?_⟩
  have covered := covers 0 4 (by decide) (by decide)
  rw [called] at covered
  cases covered

end Dmm.Mem.PoolIterator
