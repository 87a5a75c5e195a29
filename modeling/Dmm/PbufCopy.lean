import Dmm.Lib.Splice

/-!
# Copying one pbuf chain into another

`spl_pbuf_copy` and `splpbuf_to_pbuf_copy` of `spl_pbuf.c` walk two chains with a cursor in each.
A round copies up to the nearer of the two segment ends, so at least one cursor moves to the next
segment. The functions differ in the lengths of the target, 32 bits wide in a `struct spl_pbuf`
and 16 in a `struct pbuf` of lwIP, and in what they do when the target has ended.

Each segment has its own bytes, and an access to other bytes is a fault. `MEMMOVE_S` is `memmove`,
which fails for a null pointer only.
-/

namespace Dmm.PbufCopy

open Splice

/-! ## Chains -/

/-- A segment: its bytes at `payload`, and `tot_len` and `len` of its header. -/
structure Seg (W : Type) where
  payload : List UInt8
  totLen : W
  len : W
  deriving DecidableEq, Repr

/-- `struct spl_pbuf` -/
abbrev SplPbuf := Seg UInt32

/-- `struct pbuf` of lwIP. -/
abbrev Pbuf := Seg UInt16

variable {W : Type}

/-- The bytes of a chain. -/
def bytes (chain : List (Seg W)) : List UInt8 := chain.flatMap Seg.payload

/-- The header of a segment, with the length of what it refers to. -/
def Seg.header (s : Seg W) : W × W × Nat := (s.totLen, s.len, s.payload.length)

/-- `tot_len` is the sum of the lengths from each segment to the end, each at least 1, and `len` is
the number of bytes. -/
def WellFormed (widen : W → UInt32) : List (Seg W) → Prop
  | [] => True
  | s :: rest =>
    1 ≤ (widen s.len).toNat ∧ (widen s.len).toNat = s.payload.length ∧
      (widen s.totLen).toNat = (bytes (s :: rest)).length ∧ WellFormed widen rest

/-- A chain of well-formed segments, given by its first. -/
structure Chain (widen : W → UInt32) where
  segs : List (Seg W)
  nonempty : segs ≠ []
  wellFormed : WellFormed widen segs

/-! ## The copy -/

/-- The results of the functions. -/
inductive Err
  | ok
  | arg
  | val
  deriving DecidableEq, Repr

/-- How a call ends; a fault is an access outside of a segment or through a null pointer. -/
inductive Outcome
  | returned (e : Err)
  | fault
  deriving DecidableEq, Repr

/-- `MEMMOVE_S` from a segment to another, if all bytes are theirs. -/
def memmove (t : Seg W) (offsetTo : UInt32) (f : SplPbuf) (offsetFrom len : UInt32) :
    Option (Seg W) :=
  if offsetTo.toNat + len.toNat ≤ t.payload.length ∧
      offsetFrom.toNat + len.toNat ≤ f.payload.length then
    some { t with
      payload := splice t.payload offsetTo.toNat
        ((f.payload.drop offsetFrom.toNat).take len.toNat) }
  else none

/-- `len` of a round. -/
def roundLen (toLen offsetTo fromLen offsetFrom : UInt32) : UInt32 :=
  if toLen - offsetTo ≥ fromLen - offsetFrom then fromLen - offsetFrom else toLen - offsetTo

/-- The test for a packet that ends before its chain does. -/
def queued (widen : W → UInt32) : List (Seg W) → Bool
  | s :: _ :: _ => widen s.len == widen s.totLen
  | _ => false

/-- The cursor in the source after a round. -/
def nextFrom (f : SplPbuf) (pFrom : List SplPbuf) (offsetFrom : UInt32) : List SplPbuf × UInt32 :=
  if offsetFrom ≥ f.len then (pFrom, 0) else (f :: pFrom, offsetFrom)

theorem nextFrom_end {f : SplPbuf} {pFrom : List SplPbuf} {offsetTo offsetFrom toLen : UInt32}
    (stays : offsetTo + roundLen toLen offsetTo f.len offsetFrom ≠ toLen) :
    nextFrom f pFrom (offsetFrom + roundLen toLen offsetTo f.len offsetFrom) = (pFrom, 0) := by
  have sum (a b : UInt32) : a + (b - a) = b := by grind
  rw [roundLen] at stays ⊢
  split_ifs at stays ⊢ with shorter
  · rw [sum, nextFrom, if_pos (UInt32.le_refl _)]
  · exact absurd (sum offsetTo toLen) stays

theorem length_nextFrom_le (f : SplPbuf) (pFrom : List SplPbuf) (offsetFrom : UInt32) :
    (nextFrom f pFrom offsetFrom).1.length ≤ pFrom.length + 1 := by
  unfold nextFrom
  split_ifs
  · exact Nat.le_succ _
  · exact Nat.le_refl _

/-- The loop of both functions: how it ends, and the target from `p_to` on. -/
def copyLoop (widen : W → UInt32) (atNull : Outcome) :
    (pTo : List (Seg W)) → (offsetTo : UInt32) → (pFrom : List SplPbuf) → (offsetFrom : UInt32) →
    Outcome × List (Seg W)
  | pTo, _, [], _ => (.returned .ok, pTo)
  | [], _, _ :: _, _ => (atNull, [])
  | t :: pTo, offsetTo, f :: pFrom, offsetFrom =>
    let len := roundLen (widen t.len) offsetTo f.len offsetFrom
    match memmove t offsetTo f offsetFrom len with
    | none => (.fault, t :: pTo)
    | some moved =>
      if offsetTo + len > widen t.len then (.returned .val, moved :: pTo)
      else
        let next := nextFrom f pFrom (offsetFrom + len)
        if offsetTo + len = widen t.len then
          if queued id next.1 || queued widen pTo then (.returned .val, moved :: pTo)
          else
            let rest := copyLoop widen atNull pTo 0 next.1 next.2
            (rest.1, moved :: rest.2)
        else if queued id next.1 || queued widen (moved :: pTo) then (.returned .val, moved :: pTo)
        else copyLoop widen atNull (moved :: pTo) (offsetTo + len) next.1 next.2
termination_by pTo _ pFrom _ => pTo.length + pFrom.length
decreasing_by
  · have shorter := length_nextFrom_le f pFrom
      (offsetFrom + roundLen (widen t.len) offsetTo f.len offsetFrom)
    simp only [List.length_cons]
    omega
  · rw [nextFrom_end ‹_›]
    simp only [List.length_cons]
    omega

/-- The check before the loop of both functions, which null pointers do not pass. -/
def copy (widen : W → UInt32) (atNull : Outcome) (pTo : List (Seg W)) (pFrom : List SplPbuf) :
    Outcome × List (Seg W) :=
  match pTo, pFrom with
  | t :: pTo, f :: pFrom =>
    if widen t.totLen ≥ f.totLen then copyLoop widen atNull (t :: pTo) 0 (f :: pFrom) 0
    else (.returned .arg, t :: pTo)
  | pTo, _ => (.returned .arg, pTo)

/-- `spl_pbuf_copy` -/
def splPbufCopy (pTo pFrom : List SplPbuf) : Outcome × List SplPbuf :=
  copy id (.returned .arg) pTo pFrom

/-- `splpbuf_to_pbuf_copy`, which reads `tot_len` of the target for its log when the target has
ended. -/
def splpbufToPbufCopy (pTo : List Pbuf) (pFrom : List SplPbuf) : Outcome × List Pbuf :=
  copy UInt16.toUInt32 .fault pTo pFrom

/-! ## A round -/

variable {widen : W → UInt32} {atNull : Outcome} {pTo : List (Seg W)} {pFrom : List SplPbuf}
  {t : Seg W} {f : SplPbuf} {offsetTo offsetFrom : UInt32}

theorem WellFormed.replace {moved : Seg W} (wellFormed : WellFormed widen (t :: pTo))
    (same : moved.header = t.header) : WellFormed widen (moved :: pTo) := by
  simp only [Seg.header, Prod.mk.injEq] at same
  simp only [WellFormed, bytes, List.flatMap_cons, List.length_append, same] at wellFormed ⊢
  exact wellFormed

/-- No segment of a well-formed chain but the last has the length of its packet. -/
theorem queued_eq_false (wellFormed : WellFormed widen pTo) : queued widen pTo = false := by
  match pTo, wellFormed with
  | [], _ => rfl
  | [_], _ => rfl
  | s :: next :: rest, ⟨_, own, total, filled, other, _⟩ =>
    have longer : s.payload.length + next.payload.length ≤ (bytes (s :: next :: rest)).length := by
      simp only [bytes, List.flatMap_cons, List.length_append]
      omega
    have differ : widen s.len ≠ widen s.totLen := by
      intro same
      rw [← same] at total
      omega
    exact beq_eq_false_iff_ne.mpr differ

/-- A cursor: a position in the first segment, or the end. -/
def At (widen : W → UInt32) (pTo : List (Seg W)) (offset : UInt32) : Prop :=
  ∀ t ∈ pTo.head?, offset.toNat < (widen t.len).toNat

theorem WellFormed.at_zero (wellFormed : WellFormed widen pTo) : At widen pTo 0 := by
  cases pTo with
  | nil => simp [At]
  | cons t pTo =>
    intro s first
    rw [← Option.some.inj first]
    exact wellFormed.1

/-- The bytes of the source that are still to be copied. -/
def remaining (pFrom : List SplPbuf) (offsetFrom : UInt32) : List UInt8 :=
  (bytes pFrom).drop offsetFrom.toNat

/-- The length of a round is that to the nearer segment end. -/
theorem toNat_roundLen {toLen fromLen : UInt32} (atTo : offsetTo.toNat < toLen.toNat)
    (atFrom : offsetFrom.toNat < fromLen.toNat) :
    (roundLen toLen offsetTo fromLen offsetFrom).toNat =
      min (toLen.toNat - offsetTo.toNat) (fromLen.toNat - offsetFrom.toNat) := by
  have room : (toLen - offsetTo).toNat = toLen.toNat - offsetTo.toNat :=
    UInt32.toNat_sub_of_le _ _ (UInt32.le_iff_toNat_le.mpr (Nat.le_of_lt atTo))
  have left : (fromLen - offsetFrom).toNat = fromLen.toNat - offsetFrom.toNat :=
    UInt32.toNat_sub_of_le _ _ (UInt32.le_iff_toNat_le.mpr (Nat.le_of_lt atFrom))
  rw [roundLen]
  split_ifs with shorter
  · rw [ge_iff_le, UInt32.le_iff_toNat_le] at shorter
    omega
  · rw [ge_iff_le, UInt32.le_iff_toNat_le] at shorter
    omega

theorem toNat_add_of_le {offset len : UInt32} (limit : UInt32)
    (inside : offset.toNat + len.toNat ≤ limit.toNat) :
    (offset + len).toNat = offset.toNat + len.toNat := by
  have bound := limit.toNat_lt
  rw [UInt32.toNat_add, Nat.mod_eq_of_lt (by omega)]

/-- The source cursor after a round is one, and is behind the bytes of the round. -/
theorem nextFrom_spec {len : UInt32} (wellFrom : WellFormed id (f :: pFrom))
    (inside : offsetFrom.toNat + len.toNat ≤ f.len.toNat) :
    let next := nextFrom f pFrom (offsetFrom + len)
    WellFormed id next.1 ∧ At id next.1 next.2 ∧
      remaining (f :: pFrom) offsetFrom =
        (f.payload.drop offsetFrom.toNat).take len.toNat ++ remaining next.1 next.2 := by
  have sum := toNat_add_of_le f.len inside
  have own : f.len.toNat = f.payload.length := wellFrom.2.1
  have front : ((bytes (f :: pFrom)).drop offsetFrom.toNat).take len.toNat =
      (f.payload.drop offsetFrom.toNat).take len.toNat := by
    rw [bytes, List.flatMap_cons, List.drop_append_of_le_length (by omega),
      List.take_append_of_le_length (by rw [List.length_drop]; omega)]
  have split : remaining (f :: pFrom) offsetFrom =
      (f.payload.drop offsetFrom.toNat).take len.toNat ++
        (bytes (f :: pFrom)).drop (offsetFrom.toNat + len.toNat) := by
    rw [← front, ← List.drop_drop, List.take_append_drop, remaining]
  dsimp only
  rw [nextFrom]
  split_ifs with ended
  · rw [ge_iff_le, UInt32.le_iff_toNat_le, sum] at ended
    have whole : offsetFrom.toNat + len.toNat = f.payload.length := by omega
    exact ⟨wellFrom.2.2.2, wellFrom.2.2.2.at_zero, by
      rw [split, whole, bytes, List.flatMap_cons, List.drop_left]
      rfl⟩
  · rw [ge_iff_le, UInt32.le_iff_toNat_le, Nat.not_le] at ended
    have cursor : At id (f :: pFrom) (offsetFrom + len) := by
      intro s first
      rw [← Option.some.inj first]
      exact ended
    exact ⟨wellFrom, cursor, by rw [split, remaining, sum]⟩

/-- The move of a round stays in both segments and keeps the header. -/
theorem memmove_spec {len : UInt32} (insideTo : offsetTo.toNat + len.toNat ≤ t.payload.length)
    (insideFrom : offsetFrom.toNat + len.toNat ≤ f.payload.length) :
    ∃ moved chunk, memmove t offsetTo f offsetFrom len = some moved ∧
      chunk = (f.payload.drop offsetFrom.toNat).take len.toNat ∧ chunk.length = len.toNat ∧
      moved.header = t.header ∧ moved.payload = splice t.payload offsetTo.toNat chunk := by
  have length : ((f.payload.drop offsetFrom.toNat).take len.toNat).length = len.toNat := by
    rw [List.length_take, List.length_drop]
    omega
  have kept : (splice t.payload offsetTo.toNat
      ((f.payload.drop offsetFrom.toNat).take len.toNat)).length = t.payload.length :=
    length_splice (by rw [length]; exact insideTo)
  exact ⟨_, _, if_pos ⟨insideTo, insideFrom⟩, rfl, length, by rw [Seg.header, kept]; rfl, rfl⟩

/-! ## The whole copy -/

/-- A call succeeds, keeps the headers, and overwrites a run of the bytes. -/
structure Copies (pTo : List (Seg W)) (offset : Nat) (run : List UInt8)
    (after : Outcome × List (Seg W)) : Prop where
  ok : after.1 = .returned .ok
  headers : after.2.map Seg.header = pTo.map Seg.header
  overwritten : bytes after.2 = splice (bytes pTo) offset run

section Copies
variable {moved : Seg W} {chunk run : List UInt8} {offset : Nat} {after : Outcome × List (Seg W)}

/-- A round that fills a segment, and what is copied into the segments behind it. -/
theorem Copies.across (rest : Copies pTo 0 run after) (header : moved.header = t.header)
    (payload : moved.payload = splice t.payload offset chunk)
    (ends : offset + chunk.length = t.payload.length) :
    Copies (t :: pTo) offset (chunk ++ run) (after.1, moved :: after.2) where
  ok := rest.ok
  headers := by rw [List.map_cons, List.map_cons, header, rest.headers]
  overwritten :=
    calc bytes (moved :: after.2)
        = splice t.payload offset chunk ++ splice (bytes pTo) 0 run := by
          rw [← payload, ← rest.overwritten]
          rfl
      _ = splice (t.payload ++ bytes pTo) offset (chunk ++ run) := (splice_append_across ends).symm

/-- A round inside a segment overwrites a run of the whole chain. -/
theorem bytes_moved (payload : moved.payload = splice t.payload offset chunk)
    (inside : offset + chunk.length ≤ t.payload.length) :
    bytes (moved :: pTo) = splice (bytes (t :: pTo)) offset chunk := by
  have whole (s : Seg W) : bytes (s :: pTo) = s.payload ++ bytes pTo := rfl
  rw [whole, whole, splice_append_left inside, payload]

/-- A round that does not fill a segment, and what is copied behind it. -/
theorem Copies.behind (rest : Copies (moved :: pTo) (offset + chunk.length) run after)
    (header : moved.header = t.header) (payload : moved.payload = splice t.payload offset chunk)
    (inside : offset + chunk.length ≤ t.payload.length) :
    Copies (t :: pTo) offset (chunk ++ run) after where
  ok := rest.ok
  headers := by rw [rest.headers, List.map_cons, List.map_cons, header]
  overwritten := by
    have position : offset ≤ (bytes (t :: pTo)).length := by
      simp only [bytes, List.flatMap_cons, List.length_append]
      omega
    rw [rest.overwritten, bytes_moved payload inside, splice_splice position]

end Copies

/-- From a cursor in each chain the loop copies what is left of the source. -/
theorem copyLoop_copies (wellTo : WellFormed widen pTo) (wellFrom : WellFormed id pFrom)
    (atTo : At widen pTo offsetTo) (atFrom : At id pFrom offsetFrom)
    (room : offsetTo.toNat + (remaining pFrom offsetFrom).length ≤ (bytes pTo).length) :
    Copies pTo offsetTo.toNat (remaining pFrom offsetFrom)
      (copyLoop widen atNull pTo offsetTo pFrom offsetFrom) := by
  induction size : pTo.length + pFrom.length using Nat.strongRecOn
    generalizing pTo offsetTo pFrom offsetFrom with | _ bound ih
  match pTo, pFrom with
  | pTo, [] =>
    rw [copyLoop]
    exact ⟨rfl, rfl, by simp [remaining, bytes]⟩
  | [], f :: pFrom =>
    -- the target has ended, so there is no room for what is left
    have inside : offsetFrom.toNat < f.len.toNat := atFrom f rfl
    have own : f.len.toNat = f.payload.length := wellFrom.2.1
    simp only [remaining, bytes, List.flatMap_cons, List.flatMap_nil, List.length_drop,
      List.length_append, List.length_nil] at room
    omega
  | t :: pTo, f :: pFrom =>
    have insideTo : offsetTo.toNat < (widen t.len).toNat := atTo t rfl
    have insideFrom : offsetFrom.toNat < f.len.toNat := atFrom f rfl
    have ownTo : (widen t.len).toNat = t.payload.length := wellTo.2.1
    have ownFrom : f.len.toNat = f.payload.length := wellFrom.2.1
    have len := toNat_roundLen insideTo insideFrom
    have moves := @nextFrom_end f pFrom offsetTo offsetFrom (widen t.len)
    have shorter := length_nextFrom_le f pFrom
      (offsetFrom + roundLen (widen t.len) offsetTo f.len offsetFrom)
    rw [copyLoop]
    generalize roundLen (widen t.len) offsetTo f.len offsetFrom = n at len moves shorter ⊢
    have sum : (offsetTo + n).toNat = offsetTo.toNat + n.toNat :=
      toNat_add_of_le (widen t.len) (by omega)
    obtain ⟨moved, chunk, move, is, length, header, payload⟩ :=
      @memmove_spec W t f offsetTo offsetFrom n (by omega) (by omega)
    obtain ⟨wellNext, atNext, split⟩ :=
      @nextFrom_spec pFrom f offsetFrom n wellFrom (by omega)
    rw [← is] at split
    have wellMoved := wellTo.replace header
    have within : ¬ offsetTo + n > widen t.len := by
      rw [gt_iff_lt, UInt32.lt_iff_toNat_lt, sum]
      omega
    dsimp only
    rw [move]
    dsimp only
    rw [if_neg within, queued_eq_false wellNext, queued_eq_false wellTo.2.2.2,
      queued_eq_false wellMoved]
    simp only [Bool.or_self, Bool.false_eq_true, if_false]
    generalize nextFrom f pFrom (offsetFrom + n) = next at wellNext atNext split moves shorter ⊢
    rw [split, List.length_append, length] at room
    rw [split]
    simp only [List.length_cons] at size
    split_ifs with full
    · have ends : offsetTo.toNat + chunk.length = t.payload.length := by
        rw [length, ← sum, full, ownTo]
      have behind : (0 : UInt32).toNat + (remaining next.1 next.2).length ≤ (bytes pTo).length := by
        simp only [bytes, List.flatMap_cons, List.length_append] at room ⊢
        rw [UInt32.toNat_zero]
        omega
      have rest := ih _ (by omega) wellTo.2.2.2 wellNext wellTo.2.2.2.at_zero atNext behind rfl
      exact rest.across header payload ends
    · have differ : offsetTo.toNat + n.toNat ≠ (widen t.len).toNat := by
        rw [← sum]
        exact fun same => full (UInt32.toNat_inj.mp same)
      have cursor : At widen (moved :: pTo) (offsetTo + n) := by
        intro s first
        have same : moved.len = t.len := congrArg (fun h => h.2.1) header
        rw [← Option.some.inj first, same, sum]
        omega
      have inside : offsetTo.toNat + chunk.length ≤ t.payload.length := by omega
      have kept : (bytes (moved :: pTo)).length = (bytes (t :: pTo)).length := by
        rw [bytes_moved payload inside, length_splice (by omega)]
      have fewer : (moved :: pTo).length + next.1.length < bound := by
        rw [moves full, List.length_cons]
        dsimp only
        omega
      have rest := ih _ fewer wellMoved wellNext cursor atNext (by rw [sum, kept]; omega) rfl
      rw [sum, ← length] at rest
      exact rest.behind header payload inside

/-- The result of a copy between two chains: success, the bytes of the source in front, the other
bytes of the target and all headers unchanged. Being no fault, it has accessed no other bytes. -/
structure Exact (pTo : List (Seg W)) (pFrom : List SplPbuf) (after : Outcome × List (Seg W)) :
    Prop where
  ok : after.1 = .returned .ok
  copied : (bytes after.2).take (bytes pFrom).length = bytes pFrom
  others : (bytes after.2).drop (bytes pFrom).length = (bytes pTo).drop (bytes pFrom).length
  headers : after.2.map Seg.header = pTo.map Seg.header

/-- Both functions, from the check on. -/
theorem copy_exact (pTo : Chain widen) (pFrom : Chain id)
    (room : (bytes pFrom.segs).length ≤ (bytes pTo.segs).length) :
    Exact pTo.segs pFrom.segs (copy widen atNull pTo.segs pFrom.segs) := by
  have all : remaining pFrom.segs 0 = bytes pFrom.segs := List.drop_zero
  have copies : Copies pTo.segs 0 (remaining pFrom.segs 0)
      (copyLoop widen atNull pTo.segs 0 pFrom.segs 0) :=
    copyLoop_copies pTo.wellFormed pFrom.wellFormed pTo.wellFormed.at_zero
      pFrom.wellFormed.at_zero (by rw [all, UInt32.toNat_zero, Nat.zero_add]; exact room)
  rw [all] at copies
  have passes : copy widen atNull pTo.segs pFrom.segs =
      copyLoop widen atNull pTo.segs 0 pFrom.segs 0 := by
    match toIs : pTo.segs, fromIs : pFrom.segs with
    | [], _ => exact absurd toIs pTo.nonempty
    | _ :: _, [] => exact absurd fromIs pFrom.nonempty
    | t :: rest, f :: others =>
      have wellTo := pTo.wellFormed
      have wellFrom := pFrom.wellFormed
      rw [toIs] at wellTo room
      rw [fromIs] at wellFrom room
      have enough : widen t.totLen ≥ f.totLen := by
        have totals : f.totLen.toNat ≤ (widen t.totLen).toNat := by
          rw [wellTo.2.2.1]
          exact Nat.le_trans (Nat.le_of_eq wellFrom.2.2.1) room
        exact UInt32.le_iff_toNat_le.mpr totals
      rw [copy, if_pos enough]
  rw [passes]
  exact ⟨copies.ok, by rw [copies.overwritten, take_splice_zero], by
    rw [copies.overwritten, drop_splice_zero], copies.headers⟩

/-- For every pair of well-formed chains with room for the source in the target, both functions
return `ERR_OK` with exactly the bytes of the source copied. -/
theorem chain_copy_exact (pFrom : Chain (W := UInt32) id) :
    (∀ pTo : Chain (W := UInt32) id, (bytes pFrom.segs).length ≤ (bytes pTo.segs).length →
      Exact pTo.segs pFrom.segs (splPbufCopy pTo.segs pFrom.segs)) ∧
    ∀ pTo : Chain UInt16.toUInt32, (bytes pFrom.segs).length ≤ (bytes pTo.segs).length →
      Exact pTo.segs pFrom.segs (splpbufToPbufCopy pTo.segs pFrom.segs) :=
  ⟨fun pTo room => copy_exact pTo pFrom room, fun pTo room => copy_exact pTo pFrom room⟩

/-- Three bytes in two segments. -/
def threeBytes : Chain (W := UInt32) id :=
  ⟨[⟨[1, 2], 3, 2⟩, ⟨[3], 1, 1⟩], by simp, by simp [WellFormed, bytes]⟩

/-- Four bytes of lwIP, in segments that end elsewhere. -/
def fourBytes : Chain UInt16.toUInt32 :=
  ⟨[⟨[9], 4, 1⟩, ⟨[9, 9, 9], 3, 3⟩], by simp, by simp [WellFormed, bytes]⟩

/-- A target with the same segments, whose end is reached with that of the source, and one whose
segments end elsewhere. -/
theorem chain_copy_exact_three :
    Exact threeBytes.segs threeBytes.segs (splPbufCopy threeBytes.segs threeBytes.segs) ∧
      Exact fourBytes.segs threeBytes.segs (splpbufToPbufCopy fourBytes.segs threeBytes.segs) :=
  ⟨(chain_copy_exact threeBytes).1 threeBytes (by decide),
    (chain_copy_exact threeBytes).2 fourBytes (by decide)⟩

end Dmm.PbufCopy
