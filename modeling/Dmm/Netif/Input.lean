import Mathlib

/-!
# Receiving a frame

A frame comes from the driver as a chain of mbufs. `spl_hal_buf_convert` makes an `spl_pbuf` of
each, `splpbuf_to_pbuf_copy` copies the chain into a pbuf of lwIP with a cursor in both, and
`ethernetif_packets_input` hands that to `netif->input`.

The pbuf pool and `netif->input` are outside of the source: the pool gives, for a length, segments
of this length with what they held before, or nothing.
-/

namespace Dmm.Netif.Input

/-! ## Frames and buffers -/

/-- An mbuf of the driver. -/
structure Mbuf where
  id : Nat
  data : List UInt8
  pktLen : Nat
  deriving DecidableEq, Repr

/-- A frame: `pkt_len` is that of the frame in the first mbuf. -/
structure Frame where
  first : Mbuf
  rest : List Mbuf
  filled : ∀ m ∈ first :: rest, m.data ≠ []
  total : first.pktLen = ((first :: rest).flatMap Mbuf.data).length

/-- The bytes of a frame. -/
def Frame.bytes (f : Frame) : List UInt8 := (f.first :: f.rest).flatMap Mbuf.data

/-- A `struct spl_pbuf`, with the mbufs that are linked from its own on. -/
structure SplPbuf where
  mbufs : List Nat
  data : List UInt8
  totLen : Nat
  deriving DecidableEq, Repr

/-- `spl_hal_buf_convert`, which takes the mbufs apart. -/
def splHalBufConvert (mbufs : List Mbuf) : List SplPbuf :=
  mbufs.map fun m => ⟨[m.id], m.data, m.pktLen⟩

/-- The pbuf pool of lwIP: the segments of a new pbuf. -/
structure Pool where
  alloc : Nat → Option (List (List UInt8))
  length_eq : ∀ n segments, alloc n = some segments → segments.flatten.length = n
  filled : ∀ n segments, alloc n = some segments → ∀ s ∈ segments, s ≠ []

/-! ## Copying -/

/-- What `splpbuf_to_pbuf_copy` returns. -/
inductive Err
  | ok
  | arg
  | val
  deriving DecidableEq, Repr

/-- A buffer seems to be the end of a packet and is not the last. -/
def queued : List SplPbuf → Bool
  | b :: _ :: _ => b.data.length == b.totLen
  | _ => false

/-- The same for the segments of a pbuf, given by their lengths. -/
def queuedTo : List Nat → Bool
  | l :: m :: lens => l == (l :: m :: lens).sum
  | _ => false

/-- The cursor in a pbuf, on the next segment if one is full. -/
def advance (l : Nat) (lens : List Nat) (offset : Nat) : List Nat × Nat :=
  if offset = l then (lens, 0) else (l :: lens, offset)

/-- The loop of `splpbuf_to_pbuf_copy`: its result and the bytes it copies. -/
def copyLoop : (lens : List Nat) → (offsetTo : Nat) → (bufs : List SplPbuf) → (offsetFrom : Nat) →
    Err × List UInt8
  | _, _, [], _ => (.ok, [])
  | [], _, _ :: _, _ => (.arg, [])
  | l :: lens, offsetTo, b :: bufs, offsetFrom =>
    let len := min (l - offsetTo) (b.data.length - offsetFrom)
    let bytes := (b.data.drop offsetFrom).take len
    if l < offsetTo + len then (.val, bytes)
    else
      let target := advance l lens (offsetTo + len)
      let source :=
        if b.data.length ≤ offsetFrom + len then (bufs, 0) else (b :: bufs, offsetFrom + len)
      if queued source.1 then (.val, bytes)
      else if queuedTo target.1 then (.val, bytes)
      else
        let next := copyLoop target.1 target.2 source.1 source.2
        (next.1, bytes ++ next.2)
termination_by lens _ bufs _ => lens.length + bufs.length
decreasing_by
  unfold advance
  split_ifs <;> simp only [List.length_cons] <;> omega

/-- `splpbuf_to_pbuf_copy`, with the bytes of the pbuf after it. -/
def splpbufToPbufCopy (segments : List (List UInt8)) (bufs : List SplPbuf) : Err × List UInt8 :=
  match bufs with
  | [] => (.arg, segments.flatten)
  | b :: _ =>
    if segments.flatten.length < b.totLen then (.arg, segments.flatten)
    else
      let copied := copyLoop (segments.map List.length) 0 bufs 0
      (copied.1, copied.2 ++ segments.flatten.drop copied.2.length)

/-- `spl_convert_spl_pbuf_to_pbuf`: the result of the copy is dropped. -/
def splConvertSplPbufToPbuf (pool : Pool) (bufs : List SplPbuf) (totLen : Nat) :
    Option (List UInt8) :=
  (pool.alloc totLen).map fun segments => (splpbufToPbufCopy segments bufs).2

/-- `spl_pbuf_free`: the mbufs it frees, each with those linked from it. -/
def splPbufFree (bufs : List SplPbuf) : List Nat := bufs.flatMap SplPbuf.mbufs

/-- What `ethernetif_packets_input` does: the calls of `netif->input` with the bytes of the pbuf or
a null pointer, how often it frees the pbuf, and the mbufs it frees. -/
structure Outcome where
  inputs : List (Option (List UInt8))
  pbufFrees : Nat
  mbufFrees : List Nat
  deriving DecidableEq, Repr

/-- `ethernetif_packets_input`; an error of `netif->input` is only logged. -/
def ethernetifPacketsInput (pool : Pool) (_ok : Bool) (f : Frame) : Outcome :=
  let bufs := splHalBufConvert (f.first :: f.rest)
  ⟨[splConvertSplPbufToPbuf pool bufs f.first.pktLen], 0, splPbufFree bufs⟩

/-! ## When a frame is received exactly -/

/-- The bytes are handed over, nothing without a pbuf, a pbuf that is refused is freed once, and so
is every mbuf. -/
def Right (pool : Pool) (ok : Bool) (f : Frame) : Prop :=
  (pool.alloc f.bytes.length = none → (ethernetifPacketsInput pool ok f).inputs = []) ∧
    (pool.alloc f.bytes.length ≠ none →
      (ethernetifPacketsInput pool ok f).inputs = [some f.bytes] ∧
        (ok = false → (ethernetifPacketsInput pool ok f).pbufFrees = 1)) ∧
    (ethernetifPacketsInput pool ok f).mbufFrees = (f.first :: f.rest).map Mbuf.id

/-- An mbuf has its own length as `pkt_len`, and is not the last. -/
def ends : List Mbuf → Bool
  | m :: _ :: _ => m.data.length == m.pktLen
  | _ => false

/-- The bytes of the mbufs up to one behind the first that has its own length as `pkt_len` and is
not the last. -/
def upTo (m : Mbuf) : List Mbuf → List UInt8
  | [] => m.data
  | n :: rest => if ends (n :: rest) then m.data else m.data ++ upTo n rest

/-- A pbuf is there and is taken, and it already holds the bytes that are not copied, if there are
any. -/
def Meets (pool : Pool) (ok : Bool) (f : Frame) : Prop :=
  ok = true ∧ ∃ segments, pool.alloc f.bytes.length = some segments ∧
    segments.flatten.drop (upTo f.first f.rest).length =
      f.bytes.drop (upTo f.first f.rest).length

theorem queued_convert (mbufs : List Mbuf) : queued (splHalBufConvert mbufs) = ends mbufs := by
  match mbufs with
  | [] => rfl
  | [_] => rfl
  | _ :: _ :: _ => rfl

/-- Segments that are not empty are never taken for a queue. -/
theorem queuedTo_eq_false {lens : List Nat} (filled : ∀ l ∈ lens, 0 < l) :
    queuedTo lens = false := by
  match lens, filled with
  | [], _ => rfl
  | [_], _ => rfl
  | l :: m :: lens, filled =>
    have positive := filled m (by simp)
    simp only [queuedTo, List.sum_cons, beq_eq_false_iff_ne, ne_eq]
    omega

theorem upTo_eq_append (m : Mbuf) (rest : List Mbuf) : ∃ more, upTo m rest = m.data ++ more := by
  cases rest with
  | nil => exact ⟨[], by simp [upTo]⟩
  | cons n rest =>
    rw [upTo]
    split_ifs
    · exact ⟨[], by simp⟩
    · exact ⟨_, rfl⟩

/-- A cursor in segments that are not empty. -/
structure Room (lens : List Nat) (offset : Nat) : Prop where
  positive : ∀ l ∈ lens, 0 < l
  inside : ∀ l ∈ lens.head?, offset < l

/-- A cursor that moves on stays in the segments, and leaves the space behind it. -/
theorem Room.advance {l offset : Nat} {lens : List Nat} (room : Room (l :: lens) offset) {len : Nat}
    (within : offset + len ≤ l) :
    Room (advance l lens (offset + len)).1 (advance l lens (offset + len)).2 ∧
      (Input.advance l lens (offset + len)).1.sum + (offset + len) =
        (Input.advance l lens (offset + len)).2 + (l + lens.sum) := by
  have positive : ∀ k ∈ lens, 0 < k :=
    fun k listed => room.positive k (List.mem_cons_of_mem _ listed)
  unfold Input.advance
  split_ifs with full
  · refine ⟨⟨positive, fun k listed => positive k (List.mem_of_mem_head? listed)⟩, ?_⟩
    dsimp only
    omega
  · refine ⟨⟨room.positive, fun k listed => ?_⟩, ?_⟩
    · obtain rfl := Option.some.inj listed
      dsimp only
      omega
    · dsimp only
      rw [List.sum_cons]
      omega

section Loop
variable {l offsetTo offsetFrom : Nat} {lens : List Nat}

theorem copyLoop_end {b : SplPbuf} {bufs : List SplPbuf} (room : Room (l :: lens) offsetTo)
    (fits : b.data.length - offsetFrom ≤ l - offsetTo) (within : offsetFrom < b.data.length) :
    (copyLoop (l :: lens) offsetTo (b :: bufs) offsetFrom).2 =
      b.data.drop offsetFrom ++
        if queued bufs then []
        else
          let target := advance l lens (offsetTo + (b.data.length - offsetFrom))
          (copyLoop target.1 target.2 bufs 0).2 := by
  have before : offsetTo < l := room.inside l rfl
  have moved := (@Room.advance _ _ _ room (b.data.length - offsetFrom) (by omega)).1
  rw [copyLoop, Nat.min_eq_right fits]
  dsimp only
  rw [if_neg (by omega), if_pos (by omega : b.data.length ≤ _), queuedTo_eq_false moved.positive,
    List.take_of_length_le (Nat.le_of_eq List.length_drop)]
  cases queued bufs <;> simp

theorem copyLoop_fill {b : SplPbuf} {bufs : List SplPbuf} (room : Room (l :: lens) offsetTo)
    (longer : l - offsetTo < b.data.length - offsetFrom) (goes : queued (b :: bufs) = false) :
    (copyLoop (l :: lens) offsetTo (b :: bufs) offsetFrom).2 =
      (b.data.drop offsetFrom).take (l - offsetTo) ++
        (copyLoop lens 0 (b :: bufs) (offsetFrom + (l - offsetTo))).2 := by
  have before : offsetTo < l := room.inside l rfl
  have full : offsetTo + (l - offsetTo) = l := by omega
  have positive : ∀ k ∈ lens, 0 < k :=
    fun k listed => room.positive k (List.mem_cons_of_mem _ listed)
  rw [copyLoop, Nat.min_eq_left (Nat.le_of_lt longer)]
  dsimp only
  rw [if_neg (by omega), if_neg (by omega : ¬b.data.length ≤ _), full, advance, if_pos rfl, goes,
    queuedTo_eq_false positive]
  rfl

/-- The loop copies up to a buffer that is taken for the end of the packet. -/
theorem copyLoop_eq {lens : List Nat} {offsetTo : Nat} {m : Mbuf} {rest : List Mbuf}
    {offsetFrom : Nat} (room : Room lens offsetTo) (filled : ∀ k ∈ m :: rest, k.data ≠ [])
    (within : offsetFrom < m.data.length) (goes : ends (m :: rest) = false)
    (total : lens.sum = offsetTo + (m.data.length - offsetFrom + (rest.flatMap Mbuf.data).length)) :
    (copyLoop lens offsetTo (splHalBufConvert (m :: rest)) offsetFrom).2 =
      (upTo m rest).drop offsetFrom := by
  induction size : lens.length + rest.length using Nat.strongRecOn
    generalizing lens offsetTo m rest offsetFrom with | _ bound ih
  cases lens with
  | nil =>
    rw [List.sum_nil] at total
    omega
  | cons l lens =>
    rw [List.length_cons] at size
    have before : offsetTo < l := room.inside l rfl
    rw [List.sum_cons] at total
    have cons : splHalBufConvert (m :: rest) =
        ⟨[m.id], m.data, m.pktLen⟩ :: splHalBufConvert rest := rfl
    by_cases fits : m.data.length - offsetFrom ≤ l - offsetTo
    · rw [cons, copyLoop_end room fits within, queued_convert]
      cases rest with
      | nil => simp [ends, splHalBufConvert, copyLoop, upTo]
      | cons n rest =>
        have later : ∀ k ∈ n :: rest, k.data ≠ [] := fun k listed =>
          filled k (List.mem_cons_of_mem _ listed)
        rw [upTo]
        cases last : ends (n :: rest) with
        | true => simp
        | false =>
          obtain ⟨moved, left⟩ := @Room.advance _ _ _ room (m.data.length - offsetFrom) (by omega)
          rw [List.flatMap_cons, List.length_append] at total
          have smaller : (advance l lens (offsetTo + (m.data.length - offsetFrom))).1.length +
              rest.length < bound := by
            rw [← size, List.length_cons]
            unfold advance
            split_ifs <;> simp only [List.length_cons] <;> omega
          have next := ih _ smaller moved later
            (List.length_pos_iff.mpr (later n List.mem_cons_self)) last (by omega) rfl
          simp only [Bool.false_eq_true, if_false, next, List.drop_zero]
          rw [List.drop_append_of_le_length (Nat.le_of_lt within)]
    · have moved := (@Room.advance _ _ _ room (l - offsetTo) (by omega)).1
      rw [advance, if_pos (by omega)] at moved
      dsimp only at moved
      rw [cons, copyLoop_fill room (by dsimp only; omega) (by rw [← cons, queued_convert, goes]),
        ← cons, ih (lens.length + rest.length) (by omega) moved filled (by omega) goes (by omega) rfl,
        ← List.drop_drop]
      have head : (m.data.drop offsetFrom).take (l - offsetTo) =
          ((upTo m rest).drop offsetFrom).take (l - offsetTo) := by
        obtain ⟨more, is⟩ := upTo_eq_append m rest
        rw [is, List.drop_append_of_le_length (Nat.le_of_lt within),
          List.take_append_of_le_length (by rw [List.length_drop]; omega)]
      rw [head, List.take_append_drop]

end Loop

theorem upTo_append (m : Mbuf) (rest : List Mbuf) :
    ∃ more, upTo m rest ++ more = (m :: rest).flatMap Mbuf.data := by
  induction rest generalizing m with
  | nil => exact ⟨[], by simp [upTo]⟩
  | cons n rest ih =>
    obtain ⟨more, is⟩ := ih n
    rw [List.flatMap_cons, upTo]
    split_ifs
    · exact ⟨_, rfl⟩
    · exact ⟨more, by rw [List.append_assoc, is]⟩

/-- The pbuf of a frame: what is not copied is what it held before. -/
theorem convert_eq (f : Frame) {pool : Pool} {segments : List (List UInt8)}
    (given : pool.alloc f.bytes.length = some segments) :
    splConvertSplPbufToPbuf pool (splHalBufConvert (f.first :: f.rest)) f.first.pktLen =
      some (upTo f.first f.rest ++ segments.flatten.drop (upTo f.first f.rest).length) := by
  have length := pool.length_eq _ _ given
  have total : f.first.pktLen = f.bytes.length := f.total
  have some_ : 0 < f.first.data.length :=
    List.length_pos_iff.mpr (f.filled f.first List.mem_cons_self)
  have room : Room (segments.map List.length) 0 := by
    have positive : ∀ l ∈ segments.map List.length, 0 < l := by
      intro l listed
      obtain ⟨segment, among, rfl⟩ := List.mem_map.mp listed
      exact List.length_pos_iff.mpr (pool.filled _ _ given segment among)
    exact ⟨positive, fun l listed => positive l (List.mem_of_mem_head? listed)⟩
  have goes : ends (f.first :: f.rest) = false := by
    match rest : f.rest with
    | [] => rfl
    | n :: more =>
      have next : 0 < n.data.length := List.length_pos_iff.mpr (f.filled n (by simp [rest]))
      simp only [Frame.bytes, rest, List.flatMap_cons, List.length_append] at total
      simp only [ends, beq_eq_false_iff_ne, ne_eq]
      omega
  have copied := copyLoop_eq room f.filled some_ goes (by
    rw [← List.length_flatten, length, Frame.bytes, List.flatMap_cons, List.length_append]
    omega)
  rw [List.drop_zero] at copied
  rw [splConvertSplPbufToPbuf, total, given, Option.map_some]
  rw [splHalBufConvert, List.map_cons] at copied ⊢
  rw [splpbufToPbufCopy]
  dsimp only
  rw [if_neg (by omega), copied]

/-- A frame is received exactly if it meets the condition. -/
theorem frame_exact_iff (pool : Pool) (ok : Bool) (f : Frame) :
    Right pool ok f ↔ Meets pool ok f := by
  have freed : splPbufFree (splHalBufConvert (f.first :: f.rest)) =
      (f.first :: f.rest).map Mbuf.id := by
    rw [splPbufFree, splHalBufConvert, List.flatMap_map]
    exact List.flatMap_pure_eq_map Mbuf.id _
  obtain ⟨more, is⟩ := upTo_append f.first f.rest
  unfold Right Meets
  simp only [ethernetifPacketsInput, freed, and_true]
  cases given : pool.alloc f.bytes.length with
  | none => simp
  | some segments =>
    have bytes : f.bytes = upTo f.first f.rest ++ more := is.symm
    simp only [convert_eq f given, bytes, List.drop_left, ne_eq, reduceCtorEq, not_false_eq_true,
      true_implies, true_and, List.cons.injEq, Option.some.injEq, and_true,
      List.append_cancel_left_eq, Nat.zero_ne_one, imp_false, Bool.not_eq_false, exists_eq_left']
    exact and_comm

/-- Without a pbuf, `netif->input` is called with a null pointer. -/
theorem input_without_pbuf :
    ∃ (pool : Pool) (ok : Bool) (f : Frame), pool.alloc f.bytes.length = none ∧
      (ethernetifPacketsInput pool ok f).inputs = [none] :=
  ⟨⟨fun _ => none, nofun, nofun⟩, true, ⟨⟨0, [7], 1⟩, [], by simp, rfl⟩, rfl, rfl⟩

end Dmm.Netif.Input
