import Mathlib

/-!
# Sending on a UDP socket

`sbr_udp_senddata` cuts the data into a chain of pbufs of the size of a frame and posts the chain in
one message. In the stack, `do_send` walks the chain, and makes a lwIP pbuf and a datagram for each
pbuf of it. Then it frees the chain; the lwIP pbufs are freed nowhere.

What the allocators, copies and message boxes do is given.
-/

namespace Dmm.Udp.Send

/-! ## In the application -/

/-- `SPL_MAX_UDP_MSG_LEN` -/
def maxUdpMsgLen : Nat := 0xFFFF - 28

/-- `SPL_PBUF_UDP_LEN` -/
def pbufUdpLen : Nat := 1500 + 14

/-- `L2_L3_ROOM_LEN` -/
def l2L3RoomLen : Nat := 14 + 20

/-- `L4_ROOM_LEN` -/
def l4RoomLen : Nat := 8

/-- How the rest of the system answers. -/
structure Env where
  /-- `TX_MBUF_MAX_LEN` -/
  dataSize : Nat
  /-- Which calls of `nsfw_mem_mbf_alloc` give a mbuf. -/
  mbufs : Nat → Bool
  /-- Do the copies of `sbr_copy_iov` succeed. -/
  copiesIov : Bool
  /-- Are the messages to send and to free the chain posted. -/
  postsSend : Bool
  postsFree : Bool
  /-- In the stack: is there a control block, and is its connection free of a fatal error. -/
  attached : Bool
  healthy : Bool
  /-- Which calls of `pbuf_alloc` give a pbuf, and which copies to them succeed. -/
  pbufs : Nat → Bool
  copies : Nat → Bool

/-- The parts of a destination that are looked at. -/
structure Dest where
  inet : Bool
  fits : Bool
  any : Bool
  deriving DecidableEq, Repr

/-- A call on a socket: the entries, the destination, has the connection no remote and no local
address, is there a source address, and is the connection free of a fatal error. -/
structure Call where
  iov : List (List UInt8)
  dest : Option Dest
  remoteAny : Bool
  localAny : Bool
  srcIp : Bool
  healthy : Bool
  deriving DecidableEq, Repr

/-- The bytes of a call. -/
def Call.data (c : Call) : List UInt8 := c.iov.flatten

/-- The loop of `sbr_udp_senddata` over the lengths. -/
def sizeOf : List (List UInt8) → (size : Nat) → Option Nat
  | [], size => some size
  | entry :: rest, size =>
    if maxUdpMsgLen - size < entry.length then none else sizeOf rest (size + entry.length)

/-- The checks of `sbr_udp_senddata`; the size if the call is not refused. -/
def Call.accepted (c : Call) : Option Nat :=
  match sizeOf c.iov 0 with
  | none => none
  | some size =>
    if c.dest = none ∧ c.remoteAny then none
    else if c.dest.any (fun d => !d.inet || !d.fits) then none
    else if c.localAny ∧ c.srcIp = false then none
    else if c.healthy = false then none
    else some size

/-- `sbr_malloc_pbuf`: the length of the pbuf. -/
def sbrMallocPbuf (dataSize : Nat) (mbuf : Bool) (len offset : Nat) : Option Nat :=
  if len < offset ∨ dataSize < len then none else if mbuf then some (len - offset) else none

/-- The loop that makes the chain: the lengths of its pbufs, and is it complete. Each turn but the
last fills a pbuf, so `fuel` turns are enough for less than `fuel` bytes. -/
def allocLoop (e : Env) : (fuel remain headLen : Nat) → (lens : List Nat) → List Nat × Bool
  | 0, _, _, lens => (lens, false)
  | fuel + 1, remain, headLen, lens =>
    let copyLen := min remain (pbufUdpLen - headLen)
    match sbrMallocPbuf e.dataSize (e.mbufs lens.length) (headLen + copyLen) headLen with
    | none => (lens, false)
    | some len =>
      if remain - copyLen = 0 then (lens ++ [len], true)
      else allocLoop e fuel (remain - copyLen) l2L3RoomLen (lens ++ [len])

/-- A chain that is being filled: the full pbufs, the bytes in the next and its room, the lengths of
those after it, and is the chain at its end. -/
structure Fill where
  full : List (List UInt8)
  cur : List UInt8
  left : Nat
  rest : List Nat
  ended : Bool

/-- The loop of `sbr_copy_iov` for an entry. -/
def fillEntry (data : List UInt8) (full : List (List UInt8)) (cur : List UInt8) (left : Nat)
    (rest : List Nat) : Fill :=
  if data = [] then ⟨full, cur, left, rest, false⟩
  else
    let copyLen := min left data.length
    let cur := cur ++ data.take copyLen
    if left - copyLen = 0 then
      match rest with
      | [] => ⟨full ++ [cur], [], 0, [], true⟩
      | len :: rest => fillEntry (data.drop copyLen) (full ++ [cur]) [] len rest
    else ⟨full, cur, left - copyLen, rest, false⟩

/-- The loop of `sbr_copy_iov` over the entries. -/
def copyIov : List (List UInt8) → Fill → Fill
  | [], f => f
  | entry :: iov, f =>
    if f.ended then f else copyIov iov (fillEntry entry f.full f.cur f.left f.rest)

/-- `sbr_copy_iov`: the payloads of the chain. It is not called without data. -/
def sbrCopyIov (iov : List (List UInt8)) : List Nat → List (List UInt8)
  | [] => []
  | len :: rest =>
    if len = 0 then [] :: rest.map fun _ => [] else (copyIov iov ⟨[], [], len, rest, false⟩).full

/-! ## In the stack -/

/-- What becomes of a call: its result, `none` for -1, how many pbufs of the chain and how many lwIP
pbufs are allocated, which of them are freed, and the datagrams. -/
structure Sent where
  ret : Option Nat
  chain : Nat
  chainFreed : List Nat
  pbufs : Nat
  pbufsFreed : List Nat
  datagrams : List (List UInt8)
  deriving DecidableEq, Repr

/-- `spl_udp_send`: the datagrams, and how many lwIP pbufs it allocates. -/
def splUdpSend (e : Env) : List (List UInt8) → (allocated : Nat) → List (List UInt8) × Nat
  | [], allocated => ([], allocated)
  | payload :: rest, allocated =>
    if e.pbufs allocated = false then ([], allocated)
    else if e.copies allocated = false then ([], allocated + 1)
    else
      let (more, allocated) := splUdpSend e rest (allocated + 1)
      (payload :: more, allocated)

/-- `_do_send` and `do_send` -/
def doSend (e : Env) (payloads : List (List UInt8)) : List (List UInt8) × Nat :=
  if e.attached ∧ e.healthy then splUdpSend e payloads 0 else ([], 0)

/-- `sbr_udp_senddata`, with what the stack does for its message. -/
def sbrUdpSenddata (e : Env) (c : Call) : Sent :=
  match c.accepted with
  | none => ⟨none, 0, [], 0, [], []⟩
  | some size =>
    let (lens, complete) := allocLoop e (size + 1) size (l2L3RoomLen + l4RoomLen) []
    -- `sbr_handle_free_send_buf`
    let dropped : Sent :=
      ⟨none, lens.length, if e.postsFree then List.range lens.length else [], 0, [], []⟩
    if complete = false then dropped
    else if size ≠ 0 ∧ e.copiesIov = false then dropped
    else if e.postsSend = false then dropped
    else
      let (datagrams, allocated) := doSend e (sbrCopyIov c.iov lens)
      ⟨some size, lens.length, List.range lens.length, allocated, [], datagrams⟩

/-! ## The chain -/

theorem sizeOf_eq {iov : List (List UInt8)} {start size : Nat} (is : sizeOf iov start = some size) :
    size = start + iov.flatten.length := by
  induction iov generalizing start with
  | nil =>
    cases is
    simp
  | cons entry rest ih =>
    rw [sizeOf] at is
    split at is
    · cases is
    · rw [ih is, List.flatten_cons, List.length_append]
      omega

theorem Call.accepted_eq {c : Call} {size : Nat} (accepted : c.accepted = some size) :
    size = c.data.length := by
  unfold Call.accepted at accepted
  cases is : sizeOf c.iov 0 with
  | none => simp [is] at accepted
  | some total =>
    simp only [is] at accepted
    split_ifs at accepted
    cases accepted
    simpa [Call.data] using sizeOf_eq is

/-- How a complete chain is cut: one pbuf if the bytes fit, and else a full one and the others. -/
theorem allocLoop_complete {e : Env} {fuel remain headLen : Nat} {lens all : List Nat}
    (room : headLen < pbufUdpLen) (done : allocLoop e fuel remain headLen lens = (all, true)) :
    ∃ new, all = lens ++ new ∧ new.sum = remain ∧ new ≠ [] ∧
      (new.length = 1 ↔ remain ≤ pbufUdpLen - headLen) ∧ (0 < remain → ∀ len ∈ new, 0 < len) := by
  induction fuel generalizing remain headLen lens with
  | zero => cases done
  | succ fuel ih =>
    rw [allocLoop] at done
    split at done
    · cases done
    · rename_i len made
      have is : len = min remain (pbufUdpLen - headLen) := by
        unfold sbrMallocPbuf at made
        split_ifs at made
        cases made
        omega
      split at done
      · cases done
        refine ⟨[len], rfl, by simp; omega, by simp, by simp; omega, ?_⟩
        simp
        omega
      · obtain ⟨new, rfl, sum, some_, -, positive⟩ := ih (by decide) done
        refine ⟨len :: new, by simp, by simp [sum]; omega, by simp, ?_, ?_⟩
        · have length := List.length_pos_iff.mpr some_
          simp only [List.length_cons]
          omega
        · have positive := positive (by omega)
          simp only [List.mem_cons, forall_eq_or_imp]
          exact fun _ => ⟨by omega, positive⟩

/-- How many pbufs there are for some bytes. -/
def segments (remain headLen : Nat) : Nat :=
  1 + (remain - (pbufUdpLen - headLen) + (pbufUdpLen - l2L3RoomLen - 1)) /
    (pbufUdpLen - l2L3RoomLen)

theorem segments_eq (remain headLen : Nat) :
    segments remain headLen = 1 + (remain - (1514 - headLen) + 1479) / 1480 := rfl

/-- The mbufs of a chain are large enough for its first pbuf, and all of them are given. -/
def Allocates (e : Env) (remain headLen allocated : Nat) : Prop :=
  headLen + min remain (pbufUdpLen - headLen) ≤ e.dataSize ∧
    ∀ i < segments remain headLen, e.mbufs (allocated + i) = true

theorem allocLoop_complete_iff {e : Env} {fuel remain headLen : Nat} {lens : List Nat}
    (enough : remain < fuel) (low : l2L3RoomLen ≤ headLen) (room : headLen < pbufUdpLen) :
    (allocLoop e fuel remain headLen lens).2 = true ↔ Allocates e remain headLen lens.length := by
  induction fuel generalizing remain headLen lens with
  | zero => omega
  | succ fuel ih =>
    have frame : pbufUdpLen = 1514 := rfl
    have head : l2L3RoomLen = 34 := rfl
    rw [allocLoop]
    unfold sbrMallocPbuf Allocates
    by_cases large : headLen + min remain (pbufUdpLen - headLen) ≤ e.dataSize
    · cases mbuf : e.mbufs lens.length with
      | false =>
        simp only [large, true_and, Nat.not_lt.mpr (Nat.le_add_right _ _), Nat.not_lt.mpr large,
          or_self, if_false, Bool.false_eq_true, false_iff, not_forall]
        exact ⟨0, by rw [segments_eq]; omega, by simp [mbuf]⟩
      | true =>
        simp only [large, true_and, Nat.not_lt.mpr (Nat.le_add_right _ _), Nat.not_lt.mpr large,
          or_self, if_false, if_true]
        split_ifs with last
        · have one : segments remain headLen = 1 := by
            rw [segments_eq]
            omega
          simp only [true_iff, one, Nat.lt_one_iff, forall_eq]
          exact mbuf
        · have more : segments remain headLen =
              segments (remain - min remain (pbufUdpLen - headLen)) l2L3RoomLen + 1 := by
            rw [segments_eq, segments_eq]
            omega
          rw [ih (by omega) le_rfl (by omega), Allocates, List.length_append, more]
          constructor
          · rintro ⟨-, all⟩ i small
            cases i with
            | zero => exact mbuf
            | succ i =>
              have given := all i (by omega)
              rwa [List.length_singleton, Nat.add_assoc, Nat.add_comm 1 i] at given
          · intro all
            refine ⟨by omega, fun i small => ?_⟩
            have given := all (i + 1) (by omega)
            rwa [List.length_singleton, Nat.add_assoc, Nat.add_comm 1 i]
    · simp [large, Nat.not_le.mp large]

/-- The chain is empty exactly if its first pbuf is not allocated. -/
theorem allocLoop_nil_iff {e : Env} {fuel remain headLen : Nat} :
    (allocLoop e (fuel + 1) remain headLen []).1 = [] ↔
      ¬(headLen + min remain (pbufUdpLen - headLen) ≤ e.dataSize ∧ e.mbufs 0 = true) := by
  have grows (fuel remain headLen : Nat) (lens : List Nat) (some_ : lens ≠ []) :
      (allocLoop e fuel remain headLen lens).1 ≠ [] := by
    induction fuel generalizing remain headLen lens with
    | zero => exact some_
    | succ fuel ih =>
      rw [allocLoop]
      split
      · exact some_
      · split
        · simp
        · exact ih _ _ _ (by simp)
  rw [allocLoop]
  unfold sbrMallocPbuf
  by_cases large : headLen + min remain (pbufUdpLen - headLen) ≤ e.dataSize
  · cases mbuf : e.mbufs 0 with
    | false => simp [Nat.not_lt.mpr large]
    | true =>
      simp only [large, Nat.not_lt.mpr (Nat.le_add_right _ _),
        Nat.not_lt.mpr large, or_self, if_false, if_true, and_self, not_true, iff_false]
      split_ifs
      · simp
      · exact grows _ _ _ _ (by simp)
  · simp [large, Nat.not_le.mp large]

/-- A chain of some lengths holds the first bytes of the data. -/
structure Fill.Holds (f : Fill) (lens : List Nat) (data : List UInt8) : Prop where
  bytes : f.ended = false → f.full.flatten ++ f.cur = data ∧ 0 < f.left ∧
    f.full.map List.length ++ (f.cur.length + f.left) :: f.rest = lens
  ended : f.ended = true → f.full.flatten = data.take lens.sum ∧ f.full.map List.length = lens

theorem fillEntry_holds {lens : List Nat} (positive : ∀ len ∈ lens, 0 < len) {rest : List Nat}
    {entry cur : List UInt8} {full : List (List UInt8)} {left : Nat} (some_ : 0 < left)
    (is : full.map List.length ++ (cur.length + left) :: rest = lens) :
    (fillEntry entry full cur left rest).Holds lens (full.flatten ++ cur ++ entry) := by
  fun_induction fillEntry entry full cur left rest with
  | case1 full cur left rest => exact ⟨fun _ => ⟨by simp, some_, is⟩, nofun⟩
  | case2 entry full cur left _ copyLen next filled =>
    have copied : copyLen = left := by omega
    have lengths : (full ++ [next]).map List.length = lens := by
      rw [← is, List.map_append, List.map_singleton, List.length_append, List.length_take]
      simp only [copied]
      congr 2
      omega
    have sum : lens.sum = (full ++ [next]).flatten.length := by
      rw [List.length_flatten, lengths]
    have split_ : full.flatten ++ cur ++ entry =
        (full ++ [next]).flatten ++ entry.drop copyLen := by simp [next]
    exact ⟨nofun, fun _ => ⟨by rw [split_, sum, List.take_left], lengths⟩⟩
  | case3 entry full cur left _ copyLen next filled len rest ih =>
    have copied : copyLen = left := by omega
    have lengths : (full ++ [next]).map List.length ++ (([] : List UInt8).length + len) :: rest =
        lens := by
      rw [← is, List.map_append, List.map_singleton, List.length_append, List.length_take]
      simp only [copied, List.length_nil, Nat.zero_add, List.append_assoc, List.singleton_append]
      congr 2
      omega
    simpa [next] using ih (positive len (by rw [← is]; simp)) lengths
  | case4 rest entry full cur left _ copyLen next room =>
    have copied : copyLen = entry.length := by omega
    refine ⟨fun _ => ⟨by simp [next, copied], by dsimp only; omega, ?_⟩, nofun⟩
    rw [← is, List.length_append, List.length_take]
    congr 2
    dsimp only
    omega

theorem copyIov_holds {lens : List Nat} (positive : ∀ len ∈ lens, 0 < len)
    {iov : List (List UInt8)} {f : Fill} {data : List UInt8} (holds : f.Holds lens data) :
    (copyIov iov f).Holds lens (data ++ iov.flatten) := by
  induction iov generalizing f data with
  | nil => simpa [copyIov] using holds
  | cons entry iov ih =>
    rw [copyIov]
    split
    · rename_i ended
      obtain ⟨bytes, lengths⟩ := holds.ended ended
      have enough : lens.sum ≤ data.length := by
        have total := congrArg List.length bytes
        rw [List.length_flatten, lengths, List.length_take] at total
        omega
      refine ⟨fun running => absurd ended (by simp [running]), fun _ => ⟨?_, lengths⟩⟩
      rw [List.take_append_of_le_length enough, bytes]
    · rename_i running
      obtain ⟨bytes, some_, is⟩ := holds.bytes (by simpa using running)
      have filled := @fillEntry_holds _ positive _ entry _ _ _ some_ is
      rw [bytes] at filled
      simpa using ih filled

/-- A complete chain holds the data. -/
theorem sbrCopyIov_eq {iov : List (List UInt8)} {lens : List Nat} (some_ : lens ≠ [])
    (sum : lens.sum = iov.flatten.length)
    (positive : 0 < iov.flatten.length → ∀ len ∈ lens, 0 < len)
    (single : iov.flatten.length = 0 → lens.length = 1) :
    (sbrCopyIov iov lens).flatten = iov.flatten ∧ (sbrCopyIov iov lens).length = lens.length := by
  obtain ⟨len, rest, rfl⟩ := List.exists_cons_of_ne_nil some_
  rw [sbrCopyIov]
  by_cases empty : iov.flatten.length = 0
  · have nil : rest = [] := by simpa using single empty
    have zero : len = 0 := by simpa [nil, empty] using sum
    rw [if_pos zero, nil, List.length_eq_zero_iff.mp empty]
    simp
  · have positive := positive (by omega)
    have first := positive len (by simp)
    rw [if_neg (by omega)]
    have starts : (⟨[], [], len, rest, false⟩ : Fill).Holds (len :: rest) [] :=
      ⟨fun _ => ⟨rfl, first, by simp⟩, nofun⟩
    have filled := @copyIov_holds _ positive iov _ _ starts
    rw [List.nil_append] at filled
    have ended : (copyIov iov ⟨[], [], len, rest, false⟩).ended = true := by
      -- a chain with room left holds less than its lengths
      by_contra running
      obtain ⟨bytes, room, is⟩ := filled.bytes (by simpa using running)
      have total := congrArg List.length bytes
      rw [List.length_append, List.length_flatten] at total
      rw [← is, List.sum_append, List.sum_cons] at sum
      omega
    obtain ⟨bytes, lengths⟩ := filled.ended ended
    rw [sum, List.take_length] at bytes
    exact ⟨bytes, by rw [← lengths, List.length_map]⟩

/-! ## Datagrams and buffers -/

/-- The largest payload that goes into one pbuf. -/
def firstLen : Nat := pbufUdpLen - (l2L3RoomLen + l4RoomLen)

/-- The chain of a call. -/
def chainOf (e : Env) (size : Nat) : List Nat × Bool :=
  allocLoop e (size + 1) size (l2L3RoomLen + l4RoomLen) []

theorem chainOf_complete_iff {e : Env} {size : Nat} :
    (chainOf e size).2 = true ↔ Allocates e size (l2L3RoomLen + l4RoomLen) 0 :=
  allocLoop_complete_iff (Nat.lt_succ_self _) (by decide) (by decide)

/-- The message of a call is posted: the call is accepted, the chain is allocated and filled, and
the post succeeds. -/
def Posted (e : Env) (c : Call) : Prop :=
  ∃ size, c.accepted = some size ∧ Allocates e size (l2L3RoomLen + l4RoomLen) 0 ∧
    (size ≠ 0 → e.copiesIov = true) ∧ e.postsSend = true

/-- The message of a call reaches `spl_udp_send`. -/
def Reaches (e : Env) (c : Call) : Prop :=
  Posted e c ∧ e.attached = true ∧ e.healthy = true

/-- The first pbuf of the chain of a call is allocated. -/
def Begins (e : Env) (c : Call) : Prop :=
  ∃ size, c.accepted = some size ∧
    l2L3RoomLen + l4RoomLen + min size firstLen ≤ e.dataSize ∧ e.mbufs 0 = true

/-- The datagram of a call is its data, if it reaches the stack and everything there succeeds; and
each pbuf that was allocated, in the application and in the stack, is freed once. -/
structure Contract (e : Env) (c : Call) (sent : Sent) : Prop where
  datagram : Reaches e c → (∀ i, e.pbufs i = true ∧ e.copies i = true) → sent.datagrams = [c.data]
  pbufs : sent.pbufsFreed.Perm (List.range sent.pbufs)
  chain : sent.chainFreed.Perm (List.range sent.chain)

theorem splUdpSend_all {e : Env} (all : ∀ i, e.pbufs i = true ∧ e.copies i = true)
    (payloads : List (List UInt8)) (allocated : Nat) :
    splUdpSend e payloads allocated = (payloads, allocated + payloads.length) := by
  induction payloads generalizing allocated with
  | nil => rfl
  | cons payload rest ih =>
    rw [splUdpSend, if_neg (by simp [(all allocated).1]), if_neg (by simp [(all allocated).2]), ih]
    simp only [List.length_cons, Prod.mk.injEq, true_and]
    omega

theorem splUdpSend_le (e : Env) (payloads : List (List UInt8)) (allocated : Nat) :
    allocated ≤ (splUdpSend e payloads allocated).2 := by
  induction payloads generalizing allocated with
  | nil => exact le_rfl
  | cons payload rest ih =>
    have later := ih (allocated + 1)
    rw [splUdpSend]
    split_ifs
    · exact le_rfl
    · exact Nat.le_succ _
    · exact le_trans (Nat.le_succ _) later

/-- The stack allocates a pbuf exactly if the first allocation succeeds. -/
theorem splUdpSend_none_iff {e : Env} {payloads : List (List UInt8)} (some_ : payloads ≠ []) :
    (splUdpSend e payloads 0).2 = 0 ↔ e.pbufs 0 = false := by
  obtain ⟨payload, rest, rfl⟩ := List.exists_cons_of_ne_nil some_
  have later := splUdpSend_le e rest 1
  rw [splUdpSend]
  split_ifs with first
  · simp [first]
  · simp [first]
  · refine iff_of_false ?_ first
    change ¬(splUdpSend e rest 1).2 = 0
    omega

/-- The chain of a call that was accepted, with the payloads it is filled with. -/
theorem chain_filled {e : Env} {c : Call} {size : Nat} (accepted : c.accepted = some size)
    (complete : (chainOf e size).2 = true) :
    (sbrCopyIov c.iov (chainOf e size).1).flatten = c.data ∧
      sbrCopyIov c.iov (chainOf e size).1 ≠ [] ∧
      ((sbrCopyIov c.iov (chainOf e size).1).length = 1 ↔ c.data.length ≤ firstLen) := by
  have total := Call.accepted_eq accepted
  have done : allocLoop e (size + 1) size (l2L3RoomLen + l4RoomLen) [] =
      ((chainOf e size).1, true) := Prod.ext rfl complete
  obtain ⟨lens, is, sum, some_, single, positive⟩ := allocLoop_complete (by decide) done
  rw [List.nil_append] at is
  rw [is]
  rw [total] at sum single positive
  obtain ⟨bytes, length⟩ := sbrCopyIov_eq some_ sum positive fun empty => single.mpr
    (by unfold Call.data; omega)
  refine ⟨bytes, ?_, by rw [length]; exact single⟩
  rw [← List.length_pos_iff, length]
  exact List.length_pos_iff.mpr some_

theorem sbrUdpSenddata_posted {e : Env} {c : Call} {size : Nat} (accepted : c.accepted = some size)
    (complete : (chainOf e size).2 = true) (copies : size ≠ 0 → e.copiesIov = true)
    (posts : e.postsSend = true) :
    sbrUdpSenddata e c = ⟨some size, (chainOf e size).1.length,
      List.range (chainOf e size).1.length, (doSend e (sbrCopyIov c.iov (chainOf e size).1)).2, [],
      (doSend e (sbrCopyIov c.iov (chainOf e size).1)).1⟩ := by
  unfold sbrUdpSenddata
  rw [accepted]
  change (if (chainOf e size).2 = false then _ else _) = _
  rw [if_neg (by simp [complete]), if_neg (by simpa using copies), if_neg (by simp [posts])]
  rfl

/-- What a call whose message is not posted does. -/
theorem sbrUdpSenddata_dropped {e : Env} {c : Call} (unposted : ¬Posted e c) :
    ∃ chain, sbrUdpSenddata e c = ⟨none, chain, if e.postsFree then List.range chain else [], 0, [],
      []⟩ ∧ (chain = 0 ↔ ¬Begins e c) := by
  unfold sbrUdpSenddata
  cases accepted : c.accepted with
  | none => exact ⟨0, by simp, by simp [Begins, accepted]⟩
  | some size =>
    have empty : (chainOf e size).1.length = 0 ↔ ¬Begins e c := by
      rw [List.length_eq_zero_iff, chainOf, allocLoop_nil_iff, not_iff_not]
      simp [Begins, accepted, firstLen]
    refine ⟨(chainOf e size).1.length, ?_, empty⟩
    change (if (chainOf e size).2 = false then _ else if size ≠ 0 ∧ e.copiesIov = false then _
      else if e.postsSend = false then _ else _) = _
    by_cases complete : (chainOf e size).2 = false
    · rw [if_pos complete]
      rfl
    · rw [if_neg complete]
      by_cases copies : size ≠ 0 ∧ e.copiesIov = false
      · rw [if_pos copies]
        rfl
      · rw [if_neg copies]
        by_cases posts : e.postsSend = false
        · rw [if_pos posts]
          rfl
        · have allocated := chainOf_complete_iff.mp (by simpa using complete)
          refine absurd ⟨size, accepted, allocated, ?_, by simpa using posts⟩ unposted
          simpa using copies

/-- The contract is kept exactly if no lwIP pbuf is allocated, and a chain that was begun is posted,
to be sent or to be freed. When all succeeds, the datagrams are the data
in order, and there is one exactly if the data go into one pbuf. -/
theorem udp_send_iff (e : Env) (c : Call) :
    (Contract e c (sbrUdpSenddata e c) ↔
      (Reaches e c → e.pbufs 0 = false) ∧
      (¬Posted e c → Begins e c → e.postsFree = true)) ∧
    (Reaches e c → (∀ i, e.pbufs i = true ∧ e.copies i = true) →
      (sbrUdpSenddata e c).datagrams.flatten = c.data ∧
      ((sbrUdpSenddata e c).datagrams = [c.data] ↔ c.data.length ≤ firstLen)) := by
  have reached (reaches : Reaches e c) : ∃ payloads : List (List UInt8), payloads ≠ [] ∧
      payloads.flatten = c.data ∧ (payloads.length = 1 ↔ c.data.length ≤ firstLen) ∧
      (sbrUdpSenddata e c).datagrams = (splUdpSend e payloads 0).1 ∧
      (sbrUdpSenddata e c).pbufs = (splUdpSend e payloads 0).2 ∧
      (sbrUdpSenddata e c).pbufsFreed = [] := by
    obtain ⟨⟨size, accepted, allocated, copies, posts⟩, attached, healthy⟩ := reaches
    have complete := chainOf_complete_iff.mpr allocated
    obtain ⟨bytes, some_, single⟩ := chain_filled accepted complete
    refine ⟨_, some_, bytes, single, ?_⟩
    rw [sbrUdpSenddata_posted accepted complete copies posts, doSend, if_pos ⟨attached, healthy⟩]
    exact ⟨rfl, rfl, rfl⟩
  constructor
  · constructor
    · intro contract
      constructor
      · intro reaches
        obtain ⟨payloads, some_, -, -, -, pbufs, freed⟩ := reached reaches
        have none_ := contract.pbufs.length_eq
        rw [freed, pbufs, List.length_range] at none_
        exact (splUdpSend_none_iff some_).mp none_.symm
      · intro unposted begins
        obtain ⟨chain, is, empty⟩ := sbrUdpSenddata_dropped unposted
        have freed := contract.chain.length_eq
        rw [is, List.length_range] at freed
        by_contra lost
        simp only [lost, if_false, List.length_nil] at freed
        exact empty.mp freed.symm begins
    · rintro ⟨unallocated, released⟩
      by_cases posted : Posted e c
      · have posted' := posted
        obtain ⟨size, accepted, allocated, copies, posts⟩ := posted'
        have complete := chainOf_complete_iff.mpr allocated
        refine ⟨?_, ?_, ?_⟩
        · intro reaches all
          exact absurd (unallocated reaches) (by simp [(all 0).1])
        · by_cases reaches : Reaches e c
          · obtain ⟨payloads, some_, -, -, -, pbufs, freed⟩ := reached reaches
            rw [freed, pbufs, (splUdpSend_none_iff some_).mpr (unallocated reaches)]
            exact .nil
          · rw [sbrUdpSenddata_posted accepted complete copies posts, doSend, if_neg]
            · exact .nil
            · exact fun both => reaches ⟨posted, both⟩
        · rw [sbrUdpSenddata_posted accepted complete copies posts]
      · obtain ⟨chain, is, empty⟩ := sbrUdpSenddata_dropped posted
        refine ⟨fun reaches => absurd reaches.1 posted, by rw [is]; exact .nil, ?_⟩
        rw [is]
        by_cases begins : Begins e c
        · simp [released posted begins]
        · rw [empty.mpr begins]
          simp
  · intro reaches all
    obtain ⟨payloads, some_, bytes, single, datagrams, -⟩ := reached reaches
    rw [datagrams, splUdpSend_all all]
    refine ⟨bytes, ?_⟩
    rw [← single]
    constructor
    · intro is
      rw [show payloads = [c.data] from is]
      rfl
    · intro one
      obtain ⟨payload, rfl⟩ := List.length_eq_one_iff.mp one
      rw [← bytes]
      simp

/-- A call that sends an empty datagram: all succeeds, and the lwIP pbuf is not freed. -/
theorem pbuf_not_freed :
    ∃ (e : Env) (c : Call), (sbrUdpSenddata e c).ret = some 0 ∧
      (sbrUdpSenddata e c).pbufs = 1 ∧ (sbrUdpSenddata e c).pbufsFreed = [] :=
  ⟨⟨2048, fun _ => true, true, true, true, true, true, fun _ => true, fun _ => true⟩,
    ⟨[], some ⟨true, true, false⟩, true, false, true, true⟩, by decide +kernel, by decide +kernel,
    by decide +kernel⟩

end Dmm.Udp.Send
