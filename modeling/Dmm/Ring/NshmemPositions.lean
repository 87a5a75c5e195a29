import Dmm.Ring.NshmemSequential

/-!
# Positions of the process-local ring

The proof about concurrent calls follows six positions that only grow: what was retired
(`cons.tail`), read, claimed (`cons.head`), published (`prod.tail`), written and reserved
(`prod.head`), each at most the next. At most one producer is between its reservation and
its publication, and at most one consumer between its claim and its retirement; the thread
that is there holds the side (`Ghost.producer`, `Ghost.consumer`).

`Tracks` says how the memory and the log stand for the positions. There are six moves, one
for each position; each keeps `Tracks` and disturbs no other thread (`Guar`).
-/

namespace Dmm.Ring.Nshmem

open Dmm.Machine Dmm.Word

/-! ## What the log says -/

/-- The objects that slots were reserved for, in the order of the reservations. -/
def reservedOf (log : List Event) : List Obj :=
  log.filterMap fun | .reserved obj => some obj | _ => none

/-- The number of elements that were claimed for delivery. -/
def claimedOf (log : List Event) : Nat :=
  (log.map fun | .claimed num => num | _ => 0).sum

/-- The objects that were delivered, in the order of the deliveries. -/
def deliveredOf (log : List Event) : List Obj :=
  log.filterMap fun | .delivered obj => some obj | _ => none

theorem reservedOf_append (first second : List Event) :
    reservedOf (first ++ second) = reservedOf first ++ reservedOf second :=
  List.filterMap_append

theorem claimedOf_append (first second : List Event) :
    claimedOf (first ++ second) = claimedOf first + claimedOf second := by
  simp [claimedOf]

theorem deliveredOf_append (first second : List Event) :
    deliveredOf (first ++ second) = deliveredOf first ++ deliveredOf second :=
  List.filterMap_append

/-- By how much the head of a side has moved. -/
def movesOf : Side → List Event → Nat
  | .prod, log => (reservedOf log).length
  | .cons, log => claimedOf log

theorem movesOf_append (side : Side) (first second : List Event) :
    movesOf side (first ++ second) = movesOf side first + movesOf side second := by
  cases side with
  | prod => simp [movesOf, reservedOf_append]
  | cons => exact claimedOf_append first second

variable {ι : Type}

/-- The positions of the proof that are not in the log, and the threads that hold a side. -/
structure Ghost (ι : Type) where
  log : List Event
  prodTail : Nat
  /-- Number of reserved slots that have been written. -/
  written : Nat
  consTail : Nat
  /-- The thread between its reservation and its publication. -/
  producer : Option ι
  /-- The thread between its claim and its retirement. -/
  consumer : Option ι

namespace Ghost

/-- Position of `prod.head`. -/
def prodHead (g : Ghost ι) : Nat := (reservedOf g.log).length

/-- Position of `cons.head`. -/
def consHead (g : Ghost ι) : Nat := claimedOf g.log

/-- Number of delivered elements. -/
def read (g : Ghost ι) : Nat := (deliveredOf g.log).length

/-- Position of the head of a side. -/
def head (g : Ghost ι) : Side → Nat
  | .prod => g.prodHead
  | .cons => g.consHead

/-- Position of the tail of a side. -/
def tail (g : Ghost ι) : Side → Nat
  | .prod => g.prodTail
  | .cons => g.consTail

/-- The thread that holds a side. -/
def holder (g : Ghost ι) : Side → Option ι
  | .prod => g.producer
  | .cons => g.consumer

/-- A slot is reserved. -/
def reserve (g : Ghost ι) (i : ι) (obj : Obj) : Ghost ι :=
  { g with log := g.log ++ [.reserved obj], producer := some i }

/-- The reserved slot is written. -/
def write (g : Ghost ι) : Ghost ι := { g with written := g.written + 1 }

/-- The reserved slot is published. -/
def publish (g : Ghost ι) : Ghost ι := { g with prodTail := g.prodTail + 1, producer := none }

/-- Elements are claimed. -/
def claim (g : Ghost ι) (i : ι) (num : Nat) : Ghost ι :=
  { g with log := g.log ++ [.claimed num], consumer := some i }

/-- The next claimed element is read. -/
def deliver (g : Ghost ι) (obj : Obj) : Ghost ι :=
  { g with log := g.log ++ [.delivered obj] }

/-- The claimed elements are retired. -/
def retire (g : Ghost ι) : Ghost ι := { g with consTail := g.consHead, consumer := none }

theorem reserved_reserve (g : Ghost ι) (i : ι) (obj : Obj) :
    reservedOf (g.reserve i obj).log = reservedOf g.log ++ [obj] :=
  reservedOf_append _ _

theorem prodHead_reserve (g : Ghost ι) (i : ι) (obj : Obj) :
    (g.reserve i obj).prodHead = g.prodHead + 1 := by
  rw [prodHead, reserved_reserve, List.length_append]
  rfl

theorem delivered_reserve (g : Ghost ι) (i : ι) (obj : Obj) :
    deliveredOf (g.reserve i obj).log = deliveredOf g.log := by
  simp [reserve, deliveredOf]

theorem consHead_reserve (g : Ghost ι) (i : ι) (obj : Obj) :
    (g.reserve i obj).consHead = g.consHead := by
  simp [consHead, reserve, claimedOf]

theorem reserved_claim (g : Ghost ι) (i : ι) (num : Nat) :
    reservedOf (g.claim i num).log = reservedOf g.log := by
  simp [claim, reservedOf]

theorem delivered_claim (g : Ghost ι) (i : ι) (num : Nat) :
    deliveredOf (g.claim i num).log = deliveredOf g.log := by
  simp [claim, deliveredOf]

theorem consHead_claim (g : Ghost ι) (i : ι) (num : Nat) :
    (g.claim i num).consHead = g.consHead + num := by
  simp [consHead, claim, claimedOf]

theorem reserved_deliver (g : Ghost ι) (obj : Obj) :
    reservedOf (g.deliver obj).log = reservedOf g.log := by
  simp [deliver, reservedOf]

theorem delivered_deliver (g : Ghost ι) (obj : Obj) :
    deliveredOf (g.deliver obj).log = deliveredOf g.log ++ [obj] :=
  deliveredOf_append _ _

theorem consHead_deliver (g : Ghost ι) (obj : Obj) : (g.deliver obj).consHead = g.consHead := by
  simp [consHead, deliver, claimedOf]

theorem head_eq (g : Ghost ι) (side : Side) : g.head side = movesOf side g.log := by
  cases side <;> rfl

end Ghost

variable {k : Nat} {pid : UInt32} {fl : Flavour ι} {g g' : Ghost ι} {r : MemRing}
  {log : List Event} {i : ι} {b : Nat}

/-- The memory and the log stand as the positions say. -/
structure Tracks (k : Nat) (pid : UInt32) (fl : Flavour ι) (g : Ghost ι) (r : MemRing)
    (log : List Event) : Prop where
  log_eq : g.log = log
  size_eq : r.size = word (2 ^ k)
  mask_eq : r.mask = word (2 ^ k - 1)
  hflag_eq : ∀ side, hflag r side = pid
  tflag_eq : ∀ side, tflag r side = pid
  prodHead_eq : r.prodHead = word g.prodHead
  prodTail_eq : r.prodTail = word g.prodTail
  consHead_eq : r.consHead = word g.consHead
  consTail_eq : r.consTail = word g.consTail
  consTail_le : g.consTail ≤ g.read
  read_le : g.read ≤ g.consHead
  consHead_le : g.consHead ≤ g.prodTail
  prodTail_le : g.prodTail ≤ g.written
  written_le : g.written ≤ g.prodHead
  limit : g.prodHead ≤ g.consTail + 2 ^ k
  slots : ∀ q, g.consTail ≤ q → q < g.written →
    (reservedOf g.log)[q]? = some (r.ring (q % 2 ^ k)).dataL
  delivered : deliveredOf g.log <+: reservedOf g.log
  producer_none : g.producer = none → g.prodHead = g.prodTail
  producer_some : ∀ j, g.producer = some j → g.prodHead = g.prodTail + 1
  producer_lone : ∀ j, g.producer = some j → fl.producer = none ∨ fl.producer = some j
  consumer_none : g.consumer = none → g.consHead = g.consTail
  consumer_some : ∀ j, g.consumer = some j →
    (fl.consumer = none ∧ g.consTail < g.consHead) ∨ fl.consumer = some j

namespace Tracks

theorem head_eq (tracks : Tracks k pid fl g r log) (side : Side) :
    head r side = word (g.head side) := by
  cases side with
  | prod => exact tracks.prodHead_eq
  | cons => exact tracks.consHead_eq

theorem tail_eq (tracks : Tracks k pid fl g r log) (side : Side) :
    tail r side = word (g.tail side) := by
  cases side with
  | prod => exact tracks.prodTail_eq
  | cons => exact tracks.consTail_eq

/-- The tail of a side follows its head, at most one size behind. -/
theorem tail_window (tracks : Tracks k pid fl g r log) (side : Side) :
    g.tail side ≤ g.head side ∧ g.head side ≤ g.tail side + 2 ^ k := by
  have := tracks.consTail_le
  have := tracks.read_le
  have := tracks.consHead_le
  have := tracks.prodTail_le
  have := tracks.written_le
  have := tracks.limit
  cases side with
  | prod =>
    change g.prodTail ≤ g.prodHead ∧ g.prodHead ≤ g.prodTail + 2 ^ k
    omega
  | cons =>
    change g.consTail ≤ g.consHead ∧ g.consHead ≤ g.consTail + 2 ^ k
    omega

/-- What is published of a tracked ring: the elements from `cons.tail` to `prod.tail`. -/
theorem rests (tracks : Tracks k pid fl g r log) :
    Rests k g.consTail g.prodTail (fun q => (reservedOf g.log).getD q 0) r := by
  have read := tracks.consTail_le
  have claimed := tracks.read_le
  have published := tracks.consHead_le
  have written := tracks.prodTail_le
  have reserved := tracks.written_le
  have limit := tracks.limit
  refine ⟨tracks.size_eq, tracks.mask_eq, tracks.prodTail_eq, tracks.consTail_eq, by omega,
    by omega, ?_⟩
  intro q after before
  have slot := tracks.slots q after (by omega)
  rw [List.getD_eq_getElem?_getD, slot]
  rfl

end Tracks

/-! ## What a thread may do to the others -/

/-- The producers' part has not changed. -/
structure ProdSame (g g' : Ghost ι) : Prop where
  producer_eq : g'.producer = g.producer
  prodTail_eq : g'.prodTail = g.prodTail
  written_eq : g'.written = g.written
  reserved_eq : reservedOf g'.log = reservedOf g.log

/-- The consumers' part has not changed. -/
structure ConsSame (g g' : Ghost ι) : Prop where
  consumer_eq : g'.consumer = g.consumer
  consTail_eq : g'.consTail = g.consTail
  claimed_eq : claimedOf g'.log = claimedOf g.log
  delivered_eq : deliveredOf g'.log = deliveredOf g.log

/-- What a step of thread `i` guarantees: positions grow, no other thread is put inside, and
a side that another thread holds, or that belongs to another thread alone, is left alone. -/
structure Guar (fl : Flavour ι) (i : ι) (g g' : Ghost ι) : Prop where
  log_le : g.log <+: g'.log
  prodTail_le : g.prodTail ≤ g'.prodTail
  consTail_le : g.consTail ≤ g'.consTail
  producer : ∀ j, j ≠ i → g'.producer = some j → g.producer = some j
  consumer : ∀ j, j ≠ i → g'.consumer = some j → g.consumer = some j
  prod : ∀ j, j ≠ i → g.producer = some j ∨ fl.producer = some j → ProdSame g g'
  cons : ∀ j, j ≠ i → g.consumer = some j ∨ fl.consumer = some j → ConsSame g g'

theorem Guar.refl (fl : Flavour ι) (i : ι) (g : Ghost ι) : Guar fl i g g where
  log_le := List.prefix_refl _
  prodTail_le := Nat.le_refl _
  consTail_le := Nat.le_refl _
  producer := fun _ _ inside => inside
  consumer := fun _ _ inside => inside
  prod := fun _ _ _ => ⟨rfl, rfl, rfl, rfl⟩
  cons := fun _ _ _ => ⟨rfl, rfl, rfl, rfl⟩

theorem Guar.head_le (guar : Guar fl i g g') (side : Side) : g.head side ≤ g'.head side := by
  obtain ⟨rest, grown⟩ := guar.log_le
  rw [g.head_eq, g'.head_eq, ← grown, movesOf_append]
  exact Nat.le_add_right _ _

theorem Guar.tail_le (guar : Guar fl i g g') (side : Side) : g.tail side ≤ g'.tail side := by
  cases side with
  | prod => exact guar.prodTail_le
  | cons => exact guar.consTail_le

theorem Guar.outside {j : ι} (guar : Guar fl i g g') (other : j ≠ i) (side : Side)
    (outside : g.holder side ≠ some j) : g'.holder side ≠ some j := by
  intro inside
  cases side with
  | prod => exact outside (guar.producer j other inside)
  | cons => exact outside (guar.consumer j other inside)

theorem not_mine {owner : Option ι} {j : ι} (other : j ≠ i) (mine : owner = none ∨ owner = some i) :
    owner ≠ some j := by
  rintro rfl
  rcases mine with none | self
  · cases none
  · exact other (Option.some.inj self)

/-- A producer that holds its side, or finds it free, may move it. -/
theorem Guar.of_prod (grows : g.log <+: g'.log) (tail : g.prodTail ≤ g'.prodTail)
    (same : ConsSame g g') (before : g.producer = none ∨ g.producer = some i)
    (after : g'.producer = none ∨ g'.producer = some i)
    (lone : fl.producer = none ∨ fl.producer = some i) : Guar fl i g g' where
  log_le := grows
  prodTail_le := tail
  consTail_le := Nat.le_of_eq same.consTail_eq.symm
  producer := fun _ other inside => absurd inside (not_mine other after)
  consumer := fun _ _ inside => same.consumer_eq ▸ inside
  prod := by
    rintro j other (inside | theirs)
    · exact absurd inside (not_mine other before)
    · exact absurd theirs (not_mine other lone)
  cons := fun _ _ _ => same

/-- A consumer that holds its side, or finds it free, may move it. -/
theorem Guar.of_cons (grows : g.log <+: g'.log) (tail : g.consTail ≤ g'.consTail)
    (same : ProdSame g g') (before : g.consumer = none ∨ g.consumer = some i)
    (after : g'.consumer = none ∨ g'.consumer = some i)
    (lone : fl.consumer = none ∨ fl.consumer = some i) : Guar fl i g g' where
  log_le := grows
  prodTail_le := Nat.le_of_eq same.prodTail_eq.symm
  consTail_le := tail
  producer := fun _ _ inside => same.producer_eq ▸ inside
  consumer := fun _ other inside => absurd inside (not_mine other after)
  prod := fun _ _ _ => same
  cons := by
    rintro j other (inside | theirs)
    · exact absurd inside (not_mine other before)
    · exact absurd theirs (not_mine other lone)

/-! ## The moves of a producer -/

/-- A producer about to write the slot it has reserved. -/
structure Reserved (g : Ghost ι) (i : ι) (obj : Obj) (h : UInt32) : Prop where
  inside : g.producer = some i
  head : h = word g.prodTail
  unwritten : g.written = g.prodTail
  object : (reservedOf g.log)[g.prodTail]? = some obj

/-- A producer that has written the slot it has reserved. -/
structure Written (g : Ghost ι) (i : ι) (h : UInt32) : Prop where
  inside : g.producer = some i
  head : h = word g.prodTail
  written : g.written = g.prodTail + 1

/-- Moving `prod.head` over a free slot reserves it. -/
theorem Tracks.reserve (tracks : Tracks k pid fl g r log) (free : g.producer = none)
    (lone : fl.producer = none ∨ fl.producer = some i) (room : g.prodHead < g.consTail + 2 ^ k)
    (obj : Obj) :
    Guar fl i g (g.reserve i obj) ∧
      Tracks k pid fl (g.reserve i obj) { r with prodHead := word g.prodHead + 1 }
        (log ++ [.reserved obj]) ∧
      Reserved (g.reserve i obj) i obj (word g.prodHead) := by
  have shut := tracks.producer_none free
  have head := g.prodHead_reserve i obj
  have reserved := g.reserved_reserve i obj
  have written := tracks.written_le
  have published := tracks.prodTail_le
  have grows : g.log <+: (g.reserve i obj).log := List.prefix_append _ _
  have same : ConsSame g (g.reserve i obj) :=
    ⟨rfl, rfl, g.consHead_reserve i obj, g.delivered_reserve i obj⟩
  have read : (g.reserve i obj).read = g.read := congrArg List.length (g.delivered_reserve i obj)
  constructor
  · exact .of_prod grows (Nat.le_refl _) same (.inl free) (.inr rfl) lone
  constructor
  · exact {
      tracks with
      log_eq := by rw [Ghost.reserve, tracks.log_eq]
      prodHead_eq := by rw [head, ← word_succ]
      consHead_eq := by rw [g.consHead_reserve]; exact tracks.consHead_eq
      consTail_le := by rw [read]; exact tracks.consTail_le
      read_le := by rw [read, g.consHead_reserve]; exact tracks.read_le
      consHead_le := by rw [g.consHead_reserve]; exact tracks.consHead_le
      written_le := by rw [head]; exact Nat.le_succ_of_le written
      limit := by rw [head]; exact room
      slots := by
        intro q after before
        rw [reserved, List.getElem?_append_left (Nat.lt_of_lt_of_le before written)]
        exact tracks.slots q after before
      delivered := by
        rw [g.delivered_reserve, reserved]
        exact tracks.delivered.trans (List.prefix_append _ _)
      producer_none := fun none => by cases none
      producer_some := fun _ _ => by rw [head, shut]; rfl
      producer_lone := fun j inside => by
        obtain rfl := Option.some.inj inside
        exact lone
      consumer_none := by rw [g.consHead_reserve]; exact tracks.consumer_none
      consumer_some := by rw [g.consHead_reserve]; exact tracks.consumer_some }
  · constructor
    · rfl
    · rw [shut]
      rfl
    · change g.written = g.prodTail
      omega
    · rw [reserved]
      change (reservedOf g.log ++ [obj])[g.prodTail]? = some obj
      rw [← shut, Ghost.prodHead, List.getElem?_concat_length]

/-- Writing the reserved slot touches no element that is still to be retired. -/
theorem Tracks.write {obj : Obj} {h : UInt32} (tracks : Tracks k pid fl g r log) (fits : k < 32)
    (lone : fl.producer = none ∨ fl.producer = some i) (reserved : Reserved g i obj h) :
    Guar fl i g g.write ∧ Tracks k pid fl g.write (r.setSlot h (.ofDataL obj)) log ∧
      Written g.write i h := by
  have one := tracks.producer_some i reserved.inside
  have unwritten := reserved.unwritten
  have limit := tracks.limit
  have index : (h &&& r.mask).toNat = g.prodTail % 2 ^ k := by
    rw [reserved.head, tracks.mask_eq, toNat_and_word g.prodTail (by omega)]
  constructor
  · exact .of_prod (List.prefix_refl _) (Nat.le_refl _) ⟨rfl, rfl, rfl, rfl⟩
      (.inr reserved.inside) (.inr reserved.inside) lone
  constructor
  · exact {
      tracks with
      prodTail_le := Nat.le_succ_of_le tracks.prodTail_le
      written_le := by
        change g.written + 1 ≤ g.prodHead
        omega
      slots := by
        intro q after before
        change q < g.written + 1 at before
        change g.consTail ≤ q at after
        rw [MemRing.setSlot_ring, index]
        by_cases last : q = g.prodTail
        · rw [last, Function.update_self, RingData.dataL_ofDataL]
          exact reserved.object
        · have other : q % 2 ^ k ≠ g.prodTail % 2 ^ k :=
            (mod_ne_of_window (show q < g.prodTail by omega) (by omega)).symm
          rw [Function.update_of_ne other]
          exact tracks.slots q after (by omega) }
  · constructor
    · exact reserved.inside
    · exact reserved.head
    · change g.written + 1 = g.prodTail + 1
      rw [unwritten]

/-- Moving `prod.tail` publishes the slot and leaves the side. -/
theorem Tracks.publish {h : UInt32} (tracks : Tracks k pid fl g r log)
    (lone : fl.producer = none ∨ fl.producer = some i) (written : Written g i h) :
    Guar fl i g g.publish ∧ Tracks k pid fl g.publish { r with prodTail := h + 1 } log := by
  have one := tracks.producer_some i written.inside
  have all := written.written
  constructor
  · exact .of_prod (List.prefix_refl _) (Nat.le_succ _) ⟨rfl, rfl, rfl, rfl⟩
      (.inr written.inside) (.inl rfl) lone
  · exact {
      tracks with
      prodTail_eq := by
        rw [written.head]
        exact word_succ _
      consHead_le := Nat.le_succ_of_le tracks.consHead_le
      prodTail_le := Nat.le_of_eq all.symm
      producer_none := fun _ => one
      producer_some := fun _ inside => by cases inside
      producer_lone := fun _ inside => by cases inside }

/-! ## The moves of a consumer -/

/-- A consumer that has claimed elements: the slots still to read, and what it has read. -/
structure Copying (k : Nat) (g : Ghost ι) (i : ι) (h num : UInt32) (todo : List Nat)
    (out : List Obj) : Prop where
  inside : g.consumer = some i
  head : h = word g.consTail
  number : g.consHead = g.consTail + num.toNat
  todo_eq : todo = (List.range' g.read (g.consHead - g.read)).map (· % 2 ^ k)
  out_eq : out = (deliveredOf g.log).drop g.consTail

/-- Moving `cons.head` over published elements claims them. -/
theorem Tracks.claim {num : UInt32} (tracks : Tracks k pid fl g r log) (fits : k < 32)
    (free : g.consumer = none)
    (lone : (fl.consumer = none ∧ num ≠ 0) ∨ fl.consumer = some i)
    (stock : g.consHead + num.toNat ≤ g.prodTail) :
    Guar fl i g (g.claim i num.toNat) ∧
      Tracks k pid fl (g.claim i num.toNat) { r with consHead := word g.consHead + num }
        (log ++ [.claimed num.toNat]) ∧
      Copying k (g.claim i num.toNat) i (word g.consHead) num (objCopy r (word g.consHead) num)
        [] := by
  have shut := tracks.consumer_none free
  have tail := tracks.consTail_le
  have ahead := tracks.read_le
  have limit := tracks.limit
  have published := tracks.prodTail_le
  have written := tracks.written_le
  have head := g.consHead_claim i num.toNat
  have reserved := g.reserved_claim i num.toNat
  have delivered := g.delivered_claim i num.toNat
  have all : (g.claim i num.toNat).read = g.consTail := by
    rw [Ghost.read, delivered]
    change g.read = _
    omega
  have same : ProdSame g (g.claim i num.toNat) := ⟨rfl, rfl, rfl, reserved⟩
  constructor
  · exact .of_cons (List.prefix_append _ _) (Nat.le_refl _) same (.inl free) (.inr rfl)
      (lone.imp_left And.left)
  constructor
  · exact {
      tracks with
      log_eq := by rw [Ghost.claim, tracks.log_eq]
      prodHead_eq := by rw [Ghost.prodHead, reserved]; exact tracks.prodHead_eq
      consHead_eq := by rw [head, ← word_add, word_toNat]
      consTail_le := Nat.le_of_eq all.symm
      read_le := by rw [all, head]; omega
      consHead_le := by rw [head]; exact stock
      written_le := by rw [Ghost.prodHead, reserved]; exact written
      limit := by rw [Ghost.prodHead, reserved]; exact limit
      slots := by rw [reserved]; exact tracks.slots
      delivered := by rw [reserved, delivered]; exact tracks.delivered
      producer_none := by rw [Ghost.prodHead, reserved]; exact tracks.producer_none
      producer_some := by rw [Ghost.prodHead, reserved]; exact tracks.producer_some
      consumer_none := fun none => by cases none
      consumer_some := by
        intro j inside
        obtain rfl := Option.some.inj inside
        rcases lone with ⟨everybody, some⟩ | mine
        · have positive : num.toNat ≠ 0 := fun zero => some (UInt32.toNat_inj.mp zero)
          left
          refine ⟨everybody, ?_⟩
          rw [head]
          change g.consTail < _
          omega
        · exact .inr mine }
  · constructor
    · rfl
    · rw [shut]
      rfl
    · rw [head, shut]
      rfl
    · rw [all, head, objCopy_eq tracks.size_eq tracks.mask_eq fits _ (by omega), shut,
        Nat.add_sub_cancel_left]
    · rw [delivered]
      change [] = (deliveredOf g.log).drop g.consTail
      rw [List.drop_eq_nil_of_le]
      change g.read ≤ _
      omega

/-- A list extended by the next element of a list it begins. -/
theorem prefix_concat {α : Type} {xs ys : List α} {y : α} (begins : xs <+: ys)
    (next : ys[xs.length]? = some y) : xs ++ [y] <+: ys := by
  obtain ⟨rest, rfl⟩ := begins
  rw [List.getElem?_append_right (Nat.le_refl _), Nat.sub_self] at next
  cases rest with
  | nil => cases next
  | cons first rest =>
    obtain rfl := Option.some.inj next
    exact ⟨rest, by simp⟩

/-- Reading the next slot delivers the element that was reserved next. -/
theorem Tracks.deliver {h num : UInt32} {idx : Nat} {todo : List Nat} {out : List Obj}
    (tracks : Tracks k pid fl g r log) (lone : fl.consumer = none ∨ fl.consumer = some i)
    (copying : Copying k g i h num (idx :: todo) out) :
    Guar fl i g (g.deliver (r.ring idx).dataL) ∧
      Tracks k pid fl (g.deliver (r.ring idx).dataL) r (log ++ [.delivered (r.ring idx).dataL]) ∧
      Copying k (g.deliver (r.ring idx).dataL) i h num todo (out ++ [(r.ring idx).dataL]) := by
  have left : g.read < g.consHead := by
    rcases Nat.lt_or_ge g.read g.consHead with left | none
    · exact left
    · have empty := copying.todo_eq
      rw [Nat.sub_eq_zero_of_le none] at empty
      cases empty
  have step : g.consHead - g.read = (g.consHead - (g.read + 1)) + 1 := by omega
  have slots := copying.todo_eq
  rw [step, List.range'_succ, List.map_cons] at slots
  obtain ⟨rfl, rfl⟩ := List.cons.inj slots
  have published := tracks.prodTail_le
  have claimed := tracks.consHead_le
  have element := tracks.slots g.read tracks.consTail_le (by omega)
  generalize (r.ring (g.read % 2 ^ k)).dataL = obj at element
  have head := g.consHead_deliver obj
  have reserved := g.reserved_deliver obj
  have delivered := g.delivered_deliver obj
  have read : (g.deliver obj).read = g.read + 1 := by
    rw [Ghost.read, delivered, List.length_append]
    rfl
  have same : ProdSame g (g.deliver obj) := ⟨rfl, rfl, rfl, reserved⟩
  constructor
  · exact .of_cons (List.prefix_append _ _) (Nat.le_refl _) same (.inr copying.inside)
      (.inr copying.inside) lone
  constructor
  · exact {
      tracks with
      log_eq := by rw [Ghost.deliver, tracks.log_eq]
      prodHead_eq := by rw [Ghost.prodHead, reserved]; exact tracks.prodHead_eq
      consHead_eq := by rw [head]; exact tracks.consHead_eq
      consTail_le := by rw [read]; exact Nat.le_succ_of_le tracks.consTail_le
      read_le := by rw [read, head]; exact left
      consHead_le := by rw [head]; exact claimed
      written_le := by rw [Ghost.prodHead, reserved]; exact tracks.written_le
      limit := by rw [Ghost.prodHead, reserved]; exact tracks.limit
      slots := by rw [reserved]; exact tracks.slots
      delivered := by
        rw [reserved, delivered]
        exact prefix_concat tracks.delivered element
      producer_none := by rw [Ghost.prodHead, reserved]; exact tracks.producer_none
      producer_some := by rw [Ghost.prodHead, reserved]; exact tracks.producer_some
      consumer_none := by rw [head]; exact tracks.consumer_none
      consumer_some := by rw [head]; exact tracks.consumer_some }
  · constructor
    · exact copying.inside
    · exact copying.head
    · rw [head]
      exact copying.number
    · rw [read, head]
    · rw [delivered, copying.out_eq]
      change _ = (deliveredOf g.log ++ [obj]).drop g.consTail
      rw [List.drop_append_of_le_length]
      exact tracks.consTail_le

/-- A consumer that has no slot left to read has read everything it has claimed. -/
theorem Copying.read_all {h num : UInt32} {out : List Obj} (copying : Copying k g i h num [] out)
    (tracks : Tracks k pid fl g r log) : g.read = g.consHead := by
  have none := copying.todo_eq
  rw [eq_comm, List.map_eq_nil_iff, List.range'_eq_nil_iff] at none
  have := tracks.read_le
  omega

/-- Moving `cons.tail` retires the elements and leaves the side. -/
theorem Tracks.retire {h num : UInt32} {out : List Obj} (tracks : Tracks k pid fl g r log)
    (lone : fl.consumer = none ∨ fl.consumer = some i) (copying : Copying k g i h num [] out) :
    Guar fl i g g.retire ∧ Tracks k pid fl g.retire { r with consTail := h + num } log := by
  have all := copying.read_all tracks
  have number := copying.number
  have tail := tracks.consTail_le
  have limit := tracks.limit
  have grows : g.consTail ≤ g.consHead := by omega
  constructor
  · exact .of_cons (List.prefix_refl _) grows ⟨rfl, rfl, rfl, rfl⟩ (.inr copying.inside)
      (.inl rfl) lone
  · exact {
      tracks with
      consTail_eq := by
        change h + num = word g.consHead
        rw [copying.head, number, ← word_add, word_toNat]
      consTail_le := Nat.le_of_eq all.symm
      limit := by
        change g.prodHead ≤ g.consHead + 2 ^ k
        omega
      slots := fun q after before => tracks.slots q (Nat.le_trans grows after) before
      consumer_none := fun _ => rfl
      consumer_some := fun _ inside => by cases inside }

end Dmm.Ring.Nshmem
