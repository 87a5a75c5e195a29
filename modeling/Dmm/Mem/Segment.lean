import Dmm.Lib.Word
import Dmm.Lib.Linked

/-!
# Shared memory segments

`dmm_segment.c`: a segment is cut into sections of 64-byte blocks, each with a one-block
header. The headers carry two lists at once, both by distances relative to the header: the
sections in physical order (`prev_rel`, and forward by `used_num + free_num`), and the
free list through `more_rel` and `less_rel`, a ring headed at the last section. The free
space of a section lies behind its used part; an allocation takes the tail of it.

A pointer to a section is its address divided by `SECTION_SIZE`, so that pointer arithmetic
is addition. `int` fields are integers: all values are distances inside a segment of at most
`INT_MAX` blocks, except what `CALC_NUM` computes. The read-write lock around every operation
is left out, as are `__flags`, which nothing uses, and `dmm_seg_dump`. A loop that may
follow broken links has a bound; `none` means that the bound was not enough.
-/

namespace Dmm.Mem

open Dmm.Word Dmm.Linked

/-- `SECTION_SIZE` -/
def sectionSize : UInt64 := 64

/-- `DMM_MEM_NAME_SIZE` -/
def dmmMemNameSize : Nat := 32

/-- `sizeof (struct dmm_segment)` -/
def sizeofSegment : UInt64 := 56

/-- `section_t` -/
structure Section where
  prevRel : Int
  usedNum : Int
  freeNum : Int
  reqSize : UInt64
  lessRel : Int
  moreRel : Int
  name : List UInt8
  deriving DecidableEq, Repr, Inhabited

/-- `struct dmm_segment`, and the section headers of the memory. -/
structure Segment where
  base : UInt64
  size : UInt64
  first : Int
  last : Int
  totalNum : Int
  usedNum : Int
  secNum : Int
  usedSize : UInt64
  sec : Int → Section

/-- `CALC_NUM`: blocks for a request, header included; the sum is a `size_t`, the result an
`int`. -/
def calcNum (size : UInt64) : Int :=
  if size ≠ 0 then int32 ((size + (sectionSize - 1)) / sectionSize + 1).toNat else 2

namespace Segment

/-- `LESS_SEC` -/
def lessSec (seg : Segment) (sec : Int) : Int := sec + (seg.sec sec).lessRel

/-- `MORE_SEC` -/
def moreSec (seg : Segment) (sec : Int) : Int := sec + (seg.sec sec).moreRel

/-- `PREV_SEC` -/
def prevSec (seg : Segment) (sec : Int) : Int := sec + (seg.sec sec).prevRel

/-- `NEXT_SEC` -/
def nextSec (seg : Segment) (sec : Int) : Int :=
  sec + ((seg.sec sec).freeNum + (seg.sec sec).usedNum)

/-- A store to a section header. -/
def modify (seg : Segment) (sec : Int) (f : Section → Section) : Segment :=
  { seg with sec := Function.update seg.sec sec (f (seg.sec sec)) }

/-- `sec->less_rel = SEC_REL (sec, target)` -/
def setLess (seg : Segment) (sec target : Int) : Segment :=
  seg.modify sec fun s => { s with lessRel := target - sec }

/-- `sec->more_rel = SEC_REL (sec, target)` -/
def setMore (seg : Segment) (sec target : Int) : Segment :=
  seg.modify sec fun s => { s with moreRel := target - sec }

/-- The two stores that take a section out of the free list. -/
def unlink (seg : Segment) (sec : Int) : Segment :=
  let less := seg.lessSec sec
  let more := seg.moreSec sec
  (seg.setMore less more).setLess more less

/-- The four stores that put a section into the free list. -/
def insert (seg : Segment) (less pos more : Int) : Segment :=
  (((seg.setMore less pos).setLess more pos).setMore pos more).setLess pos less

/-- The stores to the counters that end an operation. -/
def adjust (seg : Segment) (usedSize : UInt64) (usedNum secNum : Int) : Segment :=
  { seg with usedSize := usedSize, usedNum := usedNum, secNum := secNum }

end Segment

/-! ## Names -/

/-- The C string that a char array holds. -/
def cString (bytes : List UInt8) : List UInt8 := bytes.takeWhile (· ≠ 0)

/-- What `strncpy` stores in a char array of `n` bytes. -/
def strncpy (bytes : List UInt8) (n : Nat) : List UInt8 :=
  (cString bytes ++ List.replicate n 0).take n

/-- `FIRST_NAME` -/
def firstName : List UInt8 := "FIRST SECTION FOR SEGMENT".toUTF8.toList

/-- `LAST_NAME` -/
def lastName : List UInt8 := "LAST SECTION FOR FREE HEAD".toUTF8.toList

/-! ## `mem_lookup` -/

/-- `name[0] != 0 && strcmp (sec->name, name) == 0` -/
def named (sec : Section) (name : List UInt8) : Bool :=
  sec.name.headD 0 != 0 && cString sec.name == cString name

/-- `mem_lookup` -/
def memLookup (fuel : Nat) (seg : Segment) (name : List UInt8) : Option (Option Int) :=
  (seek seg.prevSec (fun sec => sec == seg.first || named (seg.sec sec) name) fuel seg.last).map
    fun sec => if sec = seg.first then none else some sec

/-! ## `mem_alloc` -/

/-- The loop that finds enough free space; the head of the list stands for "no enough
memory". -/
def searchFree (fuel : Nat) (seg : Segment) (num : Int) : Option Int :=
  seek seg.moreSec (fun pos => pos == seg.last || !decide (num > (seg.sec pos).freeNum)) fuel
    (seg.moreSec seg.last)

/-- The stores that cut a new section from the tail of a section's free space; the new
section comes with them. -/
def carve (seg : Segment) (pos num : Int) (size : UInt64) : Segment × Int :=
  let next := seg.nextSec pos
  -- change next section's prev position
  let seg := seg.modify next fun s => { s with prevRel := -num }
  -- create new section
  let sec := seg.prevSec next
  let seg := seg.modify sec fun s =>
    { prevRel := pos - sec, usedNum := num, reqSize := size, freeNum := 0, lessRel := 0,
      moreRel := 0, name := s.name.set 0 0 }
  -- adjust pos
  (seg.modify pos fun s => { s with freeNum := s.freeNum - num }, sec)

/-- Moving a section with less free space than before to its place in the free list. -/
def moveBack (fuel : Nat) (seg : Segment) (pos : Int) : Option Segment :=
  let less := seg.lessSec pos
  -- remove pos from the free list
  let seg := (seg.unlink pos).modify pos fun s => { s with moreRel := 0, lessRel := 0 }
  -- find position
  (seek seg.lessSec (fun less => less == seg.last ||
      decide ((seg.sec pos).freeNum ≥ (seg.sec less).freeNum)) fuel less).map fun less =>
    -- insert into the free list
    seg.insert less pos (seg.moreSec less)

/-- The rest of `mem_alloc` once enough free space is found at `pos`. -/
def allocAt (fuel : Nat) (seg : Segment) (pos num : Int) (size : UInt64) :
    Option (Int × Segment) :=
  let (seg, sec) := carve seg pos num size
  (moveBack fuel seg pos).map fun seg =>
    (sec, seg.adjust (seg.usedSize + size) (seg.usedNum + num) (seg.secNum + 1))

/-- `mem_alloc` -/
def memAlloc (fuel : Nat) (seg : Segment) (size : UInt64) : Option (Option Int × Segment) :=
  let num := calcNum size
  if num > seg.totalNum - seg.usedNum then some (none, seg)
  else
    (searchFree fuel seg num).bind fun pos =>
      if pos = seg.last then some (none, seg)
      else (allocAt fuel seg pos num size).map fun (sec, seg) => (some sec, seg)

/-! ## `mem_free` -/

/-- Taking a section out of the free list where it has free space, which is where `mem_free`
expects it to be in the list. -/
def detach (seg : Segment) (sec : Int) : Segment :=
  if (seg.sec sec).freeNum ≠ 0 then seg.unlink sec else seg

/-- Putting a section into the free list, at its place from `more` on. -/
def place (fuel : Nat) (seg : Segment) (prev more : Int) : Option Segment :=
  (seek seg.moreSec (fun more => more == seg.last ||
      decide ((seg.sec prev).freeNum ≤ (seg.sec more).freeNum)) fuel more).map fun more =>
    seg.insert (seg.lessSec more) prev more

/-- What `mem_free` does to the two lists. -/
def giveBack (fuel : Nat) (seg : Segment) (sec : Int) : Option Segment :=
  let num := (seg.sec sec).usedNum + (seg.sec sec).freeNum
  let next := seg.nextSec sec
  let prev := seg.prevSec sec
  -- adjust next section's prev
  let seg := seg.modify next fun s => { s with prevRel := prev - next }
  let seg := detach seg sec
  let more := if (seg.sec prev).freeNum ≠ 0 then seg.moreSec prev else seg.moreSec seg.last
  let seg := detach seg prev
  -- put the space to prev's free space
  let seg := seg.modify prev fun s => { s with freeNum := s.freeNum + num }
  place fuel seg prev more

/-- `mem_free` -/
def memFree (fuel : Nat) (seg : Segment) (sec : Int) : Option Segment :=
  (giveBack fuel seg sec).map fun seg =>
    seg.adjust (seg.usedSize - (seg.sec sec).reqSize) (seg.usedNum - (seg.sec sec).usedNum)
      (seg.secNum - 1)

/-! ## `dmm_seg_create` -/

/-- `SEG_NUM` -/
def segNum : Int := calcNum sizeofSegment

/-- `align_section`: the first section and the number of blocks. The subtraction is one of
`size_t`. -/
def alignSection (base size : UInt64) : Option (Int × Int) :=
  let addr := (base + (sectionSize - 1)) &&& ~~~(sectionSize - 1)
  let total := (size - (addr - base)) / sectionSize
  if total > 0x7fffFFFF then none
  else if (total.toNat : Int) < segNum + 1 then none
  else some ((addr / sectionSize).toNat, total.toNat)

/-- `dmm_seg_create` in a memory. -/
def dmmSegCreate (memory : Int → Section) (base size : UInt64) : Option Segment :=
  (alignSection base size).map fun (first, total) =>
    let last := first + (total - 1)
    let firstSection : Section :=
      { prevRel := 0, usedNum := segNum, reqSize := sizeofSegment, freeNum := total - (segNum + 1),
        lessRel := last - first, moreRel := last - first,
        name := 0 :: strncpy firstName (dmmMemNameSize - 1) }
    let lastSection : Section :=
      { prevRel := first - last, usedNum := 0, reqSize := 0, freeNum := 0,
        lessRel := first - last, moreRel := first - last,
        name := 0 :: strncpy lastName (dmmMemNameSize - 1) }
    { base := base, size := size, first := first, last := last, totalNum := total, secNum := 2,
      usedSize := sizeofSegment, usedNum := segNum,
      sec := Function.update (Function.update memory first firstSection) last lastSection }

/-! ## The operations of a segment -/

/-- The address of the memory behind a section header. -/
def address (sec : Int) : Int := 64 * (sec + 1)

/-- `CHECK_ADDR` -/
def checkAddr (seg : Segment) (mem : Int) : Int :=
  if mem < 64 * seg.first then -1
  else if mem > 64 * seg.last then -1
  else if mem % 64 ≠ 0 then -1
  else 0

/-- `dmm_mem_alloc`; `none` in the result is `NULL`. -/
def dmmMemAlloc (fuel : Nat) (seg : Segment) (size : UInt64) : Option (Option Int × Segment) :=
  (memAlloc fuel seg size).map fun (sec, seg) => (sec.map address, seg)

/-- `dmm_mem_free` -/
def dmmMemFree (fuel : Nat) (seg : Segment) (mem : Int) : Option (Int × Segment) :=
  if checkAddr seg mem ≠ 0 then some (-1, seg)
  else (memFree fuel seg (mem / 64 - 1)).map fun seg => (0, seg)

/-- `name && name[0]` -/
def given : Option (List UInt8) → Option (List UInt8)
  | none => none
  | some name => if name.headD 0 = 0 then none else some name

/-- `dmm_mem_lookup` -/
def dmmMemLookup (fuel : Nat) (seg : Segment) (name : Option (List UInt8)) :
    Option (Option Int) :=
  match given name with
  | none => some none
  | some name => (memLookup fuel seg name).map fun sec => sec.map address

/-- `dmm_mem_map` -/
def dmmMemMap (fuel : Nat) (seg : Segment) (size : UInt64) (name : Option (List UInt8)) :
    Option (Option Int × Segment) :=
  match given name with
  | none => some (none, seg)
  | some name =>
    if (cString name).length ≥ dmmMemNameSize then some (none, seg)
    else
      (memLookup fuel seg name).bind fun
        | some _ => some (none, seg)
        | none => (memAlloc fuel seg size).map fun
          | (none, seg) => (none, seg)
          | (some sec, seg) =>
            (some (address sec),
              seg.modify sec fun s => { s with name := strncpy name dmmMemNameSize })

/-- `dmm_mem_unmap` -/
def dmmMemUnmap (fuel : Nat) (seg : Segment) (name : Option (List UInt8)) :
    Option (Int × Segment) :=
  match given name with
  | none => some (-1, seg)
  | some name =>
    (memLookup fuel seg name).bind fun
      | none => some (-1, seg)
      | some sec => (memFree fuel seg sec).map fun seg => (0, seg)

end Dmm.Mem
