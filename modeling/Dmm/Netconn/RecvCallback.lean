import Dmm.Lib.Bytes
import Dmm.Tcp.WriteQueue

/-!
# The receive callbacks

lwIP hands a pbuf chain to `spl_recv_tcp` or `spl_recv_udp`. The callback allocates an `spl_pbuf`,
copies the chain into it and puts it on the receive ring of the connection. A chain is the payloads
of its pbufs; a call is described by what it does, in order, and by what it returns.

lwIP's part of the header room, its free mbufs and the room on the ring are given. Freeing an mbuf
frees the mbufs linked from it.
-/

namespace Dmm.Netconn

open Bytes Tcp

/-! ## Buffers -/

/-- `TX_MBUF_MAX_LEN`, the size of the data area of an mbuf. -/
def txMbufMaxLen : Nat := 2048

/-- `g_offSetArry[SPL_PBUF_TRANSPORT]`: lwIP's `PBUF_TRANSPORT_HLEN` and `PBUF_IP_HLEN`, and
`SPL_PBUF_LINK_HLEN`. -/
def transportOffset (lwipHlen : Nat) : Nat := lwipHlen + 14

/-- An `spl_pbuf` at the head of the mbufs allocated for it. -/
structure SplPbuf where
  totLen : Nat
  len : Nat
  payload : Nat
  deriving DecidableEq, Repr

/-- `spl_mbuf_malloc`: `tot_len` and `len` of each buffer, taken from a pool of so many mbufs. What
has been taken is given back when the pool runs out. -/
def splMbufMalloc : (pool len : Nat) → Option (List (Nat × Nat))
  | _, 0 => some []
  | 0, _ + 1 => none
  | pool + 1, len + 1 =>
    (splMbufMalloc pool (len + 1 - min (len + 1) txMbufMaxLen)).map
      ((len + 1, min (len + 1) txMbufMaxLen) :: ·)

/-- `spl_pbuf_alloc_hugepage`: the first buffer, without its links. -/
def splPbufAllocHugepage (offset pool length : Nat) : Option SplPbuf :=
  if length < offset then none
  else match splMbufMalloc pool length with
    | some ((totLen, len) :: _) => some ⟨totLen - offset, len - offset, offset⟩
    | _ => none

/-- `pbuf_to_splpbuf_copy`: the places it writes to and the bytes it writes there. The limit is
looked at after each pbuf. -/
def pbufToSplpbufCopy (payload : Nat) : List (List UInt8) → (offset : Nat) → List (Nat × List UInt8)
  | [], _ => []
  | data :: rest, offset =>
    (payload + offset, data) ::
      if 2048 ≤ offset + data.length then []
      else pbufToSplpbufCopy payload rest (offset + data.length)

/-- The data area after some writes. -/
def written (area : Memory) (writes : List (Nat × List UInt8)) : Memory :=
  writes.foldl (fun area (place, bytes) => store area place bytes) area

/-- `spl_pbuf_copy_partial`: the bytes it copies from a chain, `copied_total` of them. -/
def splPbufCopyPartial : List (List UInt8) → (len offset : Nat) → List UInt8
  | [], _, _ => []
  | buf :: next, len, offset =>
    if len = 0 then []
    else if offset ≠ 0 ∧ buf.length ≤ offset then splPbufCopyPartial next len (offset - buf.length)
    else if len < buf.length - offset then (buf.drop offset).take len
    else buf.drop offset ++ splPbufCopyPartial next (len - (buf.length - offset)) 0

/-- The bytes of an `spl_pbuf` in its data area. -/
def SplPbuf.bytes (buf : SplPbuf) (area : Memory) : List UInt8 :=
  (List.range' buf.payload buf.len).map area

theorem splPbufCopyPartial_eq (chain : List (List UInt8)) (len offset : Nat) :
    splPbufCopyPartial chain len offset = (chain.flatten.drop offset).take len := by
  induction chain generalizing len offset with
  | nil => simp [splPbufCopyPartial]
  | cons buf next ih =>
    rw [splPbufCopyPartial, List.flatten_cons, List.drop_append]
    split_ifs with none skipped part
    · rw [none, List.take_zero]
    · rw [ih, List.drop_eq_nil_of_le skipped.2, List.nil_append]
    · rw [List.take_append_of_le_length (by rw [List.length_drop]; omega)]
    · have ends : offset - buf.length = 0 := by omega
      have all : (buf.drop offset).length ≤ len := by
        rw [List.length_drop]
        omega
      rw [ih, ends, List.drop_zero, List.take_append, List.take_of_length_le all, List.length_drop]

/-- The pool has enough mbufs exactly when their data areas hold the length. -/
theorem splMbufMalloc_eq_none (pool len : Nat) :
    splMbufMalloc pool len = none ↔ pool * txMbufMaxLen < len := by
  fun_induction splMbufMalloc pool len with
  | case1 pool => simp
  | case2 len => simp
  | case3 pool len ih =>
    rw [Option.map_eq_none_iff, ih, txMbufMaxLen]
    omega

/-- The buffer a positive length is given. -/
theorem splPbufAllocHugepage_eq {offset pool length : Nat} (room : 0 < offset) :
    splPbufAllocHugepage offset pool length =
      if length < offset ∨ pool * txMbufMaxLen < length then none
      else some ⟨length - offset, min length txMbufMaxLen - offset, offset⟩ := by
  have enough := splMbufMalloc_eq_none pool length
  rw [splPbufAllocHugepage]
  by_cases short : length < offset
  · rw [if_pos short, if_pos (.inl short)]
  · simp only [short, if_false, false_or, ← enough]
    cases pool with
    | zero =>
      cases length with
      | zero => omega
      | succ length => simp [splMbufMalloc]
    | succ pool =>
      cases length with
      | zero => omega
      | succ length =>
        rw [splMbufMalloc]
        cases splMbufMalloc pool (length + 1 - min (length + 1) txMbufMaxLen) <;> simp

/-- The copy stays in the data area exactly when the chain fits behind the header room. -/
theorem pbufToSplpbufCopy_inside {payload : Nat} (room : 0 < payload) (chain : List (List UInt8))
    {offset : Nat} (inside : payload + offset ≤ txMbufMaxLen) :
    (∀ w ∈ pbufToSplpbufCopy payload chain offset, w.1 + w.2.length ≤ txMbufMaxLen) ↔
      payload + offset + chain.flatten.length ≤ txMbufMaxLen := by
  induction chain generalizing offset with
  | nil => simpa [pbufToSplpbufCopy] using inside
  | cons data rest ih =>
    simp only [pbufToSplpbufCopy, List.forall_mem_cons, List.flatten_cons, List.length_append]
    by_cases fits : payload + offset + data.length ≤ txMbufMaxLen
    · have below : ¬ 2048 ≤ offset + data.length := by
        rw [txMbufMaxLen] at fits
        omega
      rw [if_neg below, ih (by omega)]
      omega
    · constructor
      · intro all
        exact absurd all.1 fits
      · intro all
        omega

/-- A chain that fits is written as one run of bytes. -/
theorem written_pbufToSplpbufCopy {payload : Nat} (room : 0 < payload) (chain : List (List UInt8))
    {offset : Nat} (fits : payload + offset + chain.flatten.length ≤ txMbufMaxLen)
    (area : Memory) :
    written area (pbufToSplpbufCopy payload chain offset) =
      store area (payload + offset) chain.flatten := by
  induction chain generalizing offset area with
  | nil =>
    funext i
    exact (store_outside (by simp; omega)).symm
  | cons data rest ih =>
    simp only [List.flatten_cons, List.length_append] at fits ⊢
    have below : ¬ 2048 ≤ offset + data.length := by
      rw [txMbufMaxLen] at fits
      omega
    rw [pbufToSplpbufCopy, if_neg below, written, List.foldl_cons]
    have rest := @ih (offset + data.length) (by omega) (store area (payload + offset) data)
    rw [written] at rest
    rw [rest, ← Nat.add_assoc, store_append]

theorem bytes_store (buf : SplPbuf) (area : Memory) {bytes : List UInt8}
    (whole : buf.len = bytes.length) : buf.bytes (store area buf.payload bytes) = bytes := by
  rw [SplPbuf.bytes, whole]
  apply List.ext_getElem (by simp)
  intro i small _
  have inside : i < bytes.length := by simpa using small
  rw [List.getElem_map, List.getElem_range', Nat.one_mul, store_inside inside]

/-! ## The callbacks -/

/-- `ERR_VAL` -/
def errVal : Int := -6

/-- `ERR_ARG` -/
def errArg : Int := -14

/-- What a callback does. -/
inductive Effect
  | pbufFree
  | alloc
  | copy (writes : List (Nat × List UInt8))
  /-- The buffer is put on the receive ring, with this data area. -/
  | enqueue (buf : SplPbuf) (area : Memory)
  | splPbufFree
  | rcvplus

/-- Which effect it is, without its data. -/
def Effect.kind : Effect → Nat
  | pbufFree => 0
  | alloc => 1
  | copy _ => 2
  | enqueue _ _ => 3
  | splPbufFree => 4
  | rcvplus => 5

/-- What `sp_enqueue` finds. -/
inductive Target
  /-- `comm_pcb_data` is `NULL` or has no connection. -/
  | unattached
  | noRing
  | ring (free : Nat)
  deriving DecidableEq, Repr

/-- `sp_enqueue` -/
def spEnqueue : Target → Int
  | .unattached => errVal
  | .noRing => errClsd
  | .ring 0 => errMem
  | .ring (_ + 1) => errOk

/-- What a callback is called with: whether the pcb and the argument are set, the header room of
lwIP, the free mbufs, what the fresh data area holds and where the buffer is to be put. -/
structure Call where
  pcb : Bool
  arg : Bool
  lwipHlen : Nat
  pool : Nat
  /-- The data area of the mbuf that is allocated first. -/
  area : Memory
  target : Target

/-- The allocation of a callback: the length is narrowed to 16 bits. -/
def Call.alloc (c : Call) (p : List (List UInt8)) : Option SplPbuf :=
  splPbufAllocHugepage (transportOffset c.lwipHlen) c.pool
    ((p.flatten.length + transportOffset c.lwipHlen) % 2 ^ 16)

/-- The data area after the copy. -/
def Call.copied (c : Call) (p : List (List UInt8)) (buf : SplPbuf) : Memory :=
  written c.area (pbufToSplpbufCopy buf.payload p 0)

/-- What both callbacks do once they have a buffer: the copy, `pbuf_free` and `sp_enqueue`, with
`spl_pbuf_free` when that fails. -/
def Call.handOver (c : Call) (p : List (List UInt8)) (buf : SplPbuf) : List Effect :=
  [.alloc, .copy (pbufToSplpbufCopy buf.payload p 0), .pbufFree] ++
    if spEnqueue c.target ≠ errOk then [.splPbufFree]
    else [.enqueue buf (c.copied p buf), .rcvplus]

/-- `spl_recv_tcp`: what it returns and what it does. -/
def splRecvTcp (c : Call) : Option (List (List UInt8)) → Int × List Effect
  | none => (if c.pcb ∧ c.arg then errOk else errArg, [])
  | some p =>
    if c.pcb = false ∨ c.arg = false then (errArg, [.pbufFree])
    else match c.alloc p with
      | none => (errMem, [])
      | some buf =>
        (if spEnqueue c.target ≠ errOk then errMem else errOk, c.handOver p buf)

/-- `spl_recv_udp`: what it does. -/
def splRecvUdp (c : Call) (p : List (List UInt8)) : List Effect :=
  if c.pcb = false ∨ c.arg = false then [.pbufFree]
  else match c.alloc p with
    | none => []
    | some buf => c.handOver p buf

/-! ## Exact copies -/

/-- The copies stay inside the data area, and what is queued for the application is the chain. -/
def ExactCopy (p : List (List UInt8)) (effects : List Effect) : Prop :=
  (∀ writes, .copy writes ∈ effects → ∀ w ∈ writes, w.1 + w.2.length ≤ txMbufMaxLen) ∧
    ∀ buf area, .enqueue buf area ∈ effects →
      buf.totLen = p.flatten.length ∧
        splPbufCopyPartial [buf.bytes area] buf.totLen 0 = p.flatten

/-- The chain with its header room fits one mbuf, or no buffer is to be had for it. -/
def Call.Fits (c : Call) (p : List (List UInt8)) : Prop :=
  p.flatten.length + transportOffset c.lwipHlen ≤ txMbufMaxLen ∨
    2 ^ 16 ≤ p.flatten.length + transportOffset c.lwipHlen ∨
    c.pool * txMbufMaxLen < p.flatten.length + transportOffset c.lwipHlen

section

variable {c : Call} {p : List (List UInt8)} (header : c.lwipHlen < 2000)
  (short : p.flatten.length < 2 ^ 16)

include header short

/-- The allocation of a callback for a chain of at most 65535 bytes. -/
theorem alloc_eq : c.alloc p =
    if 2 ^ 16 ≤ p.flatten.length + transportOffset c.lwipHlen ∨
        c.pool * txMbufMaxLen < p.flatten.length + transportOffset c.lwipHlen then none
    else some ⟨p.flatten.length, min (p.flatten.length + transportOffset c.lwipHlen) txMbufMaxLen -
      transportOffset c.lwipHlen, transportOffset c.lwipHlen⟩ := by
  have room : 0 < transportOffset c.lwipHlen := by simp [transportOffset]
  rw [Call.alloc, splPbufAllocHugepage_eq room]
  by_cases narrow : 2 ^ 16 ≤ p.flatten.length + transportOffset c.lwipHlen
  · have wraps : (p.flatten.length + transportOffset c.lwipHlen) % 2 ^ 16 <
        transportOffset c.lwipHlen := by
      rw [transportOffset] at *
      omega
    rw [if_pos (.inl wraps), if_pos (.inl narrow)]
  · rw [Nat.mod_eq_of_lt (by omega), Nat.add_sub_cancel]
    have large : ¬ p.flatten.length + transportOffset c.lwipHlen < transportOffset c.lwipHlen := by
      omega
    simp only [large, narrow, false_or]

/-- With a buffer the copy is exact when the chain fits. -/
theorem exactCopy_handOver {buf : SplPbuf} (got : c.alloc p = some buf) :
    ExactCopy p (c.handOver p buf) ↔ c.Fits p := by
  rw [alloc_eq header short] at got
  split_ifs at got with full
  obtain rfl := Option.some.inj got
  have room : 0 < transportOffset c.lwipHlen := by simp [transportOffset]
  have inside : transportOffset c.lwipHlen + 0 ≤ txMbufMaxLen := by
    simp only [transportOffset, txMbufMaxLen]
    omega
  have copies := pbufToSplpbufCopy_inside room p inside
  constructor
  · intro exact
    have fits := copies.mp (exact.1 _ (by simp [Call.handOver]))
    exact .inl (by omega)
  · rintro (fits | refused)
    · have small : transportOffset c.lwipHlen + 0 + p.flatten.length ≤ txMbufMaxLen := by omega
      refine ⟨?_, ?_⟩
      · intro writes mem
        have same : writes = pbufToSplpbufCopy (transportOffset c.lwipHlen) p 0 := by
          rw [Call.handOver] at mem
          split_ifs at mem <;> simpa using mem
        rw [same]
        exact copies.mpr small
      · intro buf area mem
        rw [Call.handOver] at mem
        split_ifs at mem with refused
        · simp at mem
        · simp only [List.cons_append, List.nil_append, List.mem_cons, reduceCtorEq, false_or,
            Effect.enqueue.injEq, List.not_mem_nil, or_false] at mem
          obtain ⟨rfl, rfl⟩ := mem
          refine ⟨rfl, ?_⟩
          rw [splPbufCopyPartial_eq, Call.copied, written_pbufToSplpbufCopy room p small,
            Nat.add_zero, bytes_store _ _ (by simp only; omega)]
          simp
    · exact absurd refused full

/-- Whatever the ring and the pool are, both callbacks copy exactly when the chain with its header
room fits one mbuf, or there is no buffer for it, or they do not get that far. -/
theorem received_exact_iff :
    ExactCopy p (splRecvTcp c (some p)).2 ∧ ExactCopy p (splRecvUdp c p) ↔
      (c.pcb → c.arg → c.Fits p) := by
  have idle : ExactCopy p [] ∧ ExactCopy p [.pbufFree] := by simp [ExactCopy]
  by_cases called : c.pcb = false ∨ c.arg = false
  · simp only [splRecvTcp, splRecvUdp, if_pos called, idle.2, and_self, true_iff]
    intro pcb arg
    simp [pcb, arg] at called
  · have set : c.pcb = true ∧ c.arg = true := by simpa using called
    simp only [splRecvTcp, splRecvUdp, if_neg called, forall_prop_of_true set.1,
      forall_prop_of_true set.2]
    cases got : c.alloc p with
    | none =>
      rw [alloc_eq header short] at got
      split_ifs at got with full
      exact ⟨fun _ => .inr full, fun _ => ⟨idle.1, idle.1⟩⟩
    | some buf =>
      simp only
      rw [exactCopy_handOver header short got, and_self]

end

/-- A connection with a free place on its ring, and a pool of 8 mbufs. -/
def openCall : Call := ⟨true, true, 40, 8, fun _ => 0, .ring 1⟩

/-- A chain of 3 and 2 bytes is copied exactly. -/
theorem received_exact_five :
    openCall.Fits [[1, 2, 3], [4, 5]] ∧
      ExactCopy [[1, 2, 3], [4, 5]] (splRecvTcp openCall (some [[1, 2, 3], [4, 5]])).2 := by
  have fits : openCall.Fits [[1, 2, 3], [4, 5]] := .inl (by decide)
  exact ⟨fits, ((received_exact_iff (c := openCall) (by decide) (by decide)).mpr
    fun _ _ => fits).1⟩

/-- A single pbuf of 1995 bytes. -/
def large : List (List UInt8) := [List.replicate 1995 7]

/-- It is queued although its copy ends behind the data area. -/
theorem received_behind_area :
    (splRecvTcp openCall (some large)).1 = errOk ∧
      ¬ ExactCopy large (splRecvTcp openCall (some large)).2 ∧
      ¬ ExactCopy large (splRecvUdp openCall large) := by
  have length : large.flatten.length = 1995 := by
    rw [large, List.flatten_singleton, List.length_replicate]
  have got : openCall.alloc large = some ⟨1995, 1994, 54⟩ := by
    rw [alloc_eq (by decide) (by omega), length]
    decide
  have outside : ¬ openCall.Fits large := by
    rw [Call.Fits, length]
    decide
  have inexact := (not_congr (exactCopy_handOver (by decide) (by omega) got)).mpr outside
  have called : ¬ (openCall.pcb = false ∨ openCall.arg = false) := by decide
  rw [splRecvTcp, splRecvUdp, if_neg called, if_neg called, got]
  exact ⟨by decide, inexact, inexact⟩

/-! ## Ownership -/

/-- How often an effect of this kind occurs. -/
def times (kind : Nat) (effects : List Effect) : Nat :=
  effects.countP (·.kind = kind)

/-- Every `spl_pbuf` allocated is on the ring or freed, once. -/
def Accounted (effects : List Effect) : Prop :=
  times 1 effects = times 3 effects + times 4 effects

/-- `ERR_OK` says that a chain has been freed and its bytes queued once, any other value that it has
been left alone. -/
def TcpOwned (p : Option (List (List UInt8))) (result : Int × List Effect) : Prop :=
  (result.1 = errOk → p.isSome → times 0 result.2 = 1 ∧ times 3 result.2 = 1) ∧
    (result.1 ≠ errOk → times 0 result.2 = 0 ∧ times 3 result.2 = 0) ∧ Accounted result.2

/-- The chain has been freed once. -/
def UdpOwned (effects : List Effect) : Prop := times 0 effects = 1 ∧ Accounted effects

/-- The length, as narrowed, is shorter than the header room or longer than the free mbufs. -/
def Call.NoBuffer (c : Call) (p : List (List UInt8)) : Prop :=
  let length := (p.flatten.length + transportOffset c.lwipHlen) % 2 ^ 16
  length < transportOffset c.lwipHlen ∨ c.pool * txMbufMaxLen < length

theorem alloc_eq_none (c : Call) (p : List (List UInt8)) : c.alloc p = none ↔ c.NoBuffer p := by
  have room : 0 < transportOffset c.lwipHlen := by simp [transportOffset]
  rw [Call.alloc, splPbufAllocHugepage_eq room, Call.NoBuffer]
  split_ifs with refused
  · exact ⟨fun _ => refused, fun _ => rfl⟩
  · exact ⟨fun none => by simp at none, fun none => absurd none refused⟩

/-- `spl_recv_tcp` keeps lwIP's contract exactly when it is called for a connection and the ring
takes the buffer, or no buffer was to be had; `spl_recv_udp` exactly when it gets a buffer or is not
called for a connection. -/
theorem callbacks_owned_iff (c : Call) :
    (∀ p, TcpOwned p (splRecvTcp c p) ↔
      ∀ chain, p = some chain →
        c.pcb ∧ c.arg ∧ (c.NoBuffer chain ∨ ∃ free, c.target = .ring (free + 1))) ∧
    ∀ p, UdpOwned (splRecvUdp c p) ↔ (c.pcb → c.arg → ¬ c.NoBuffer p) := by
  have accepted : spEnqueue c.target = errOk ↔ ∃ free, c.target = .ring (free + 1) := by
    rcases c.target with _ | _ | (_ | free) <;> simp [spEnqueue, errVal, errClsd, errMem, errOk]
  have counts (chain : List (List UInt8)) (buf : SplPbuf) :
      times 0 (c.handOver chain buf) = 1 ∧ Accounted (c.handOver chain buf) ∧
        times 3 (c.handOver chain buf) = if spEnqueue c.target = errOk then 1 else 0 := by
    by_cases taken : spEnqueue c.target = errOk <;>
      simp [Call.handOver, taken, times, Accounted, Effect.kind]
  simp only [← alloc_eq_none]
  constructor
  · intro p
    cases p with
    | none => by_cases called : c.pcb ∧ c.arg <;>
        simp [TcpOwned, splRecvTcp, called, times, Accounted, errOk, errArg]
    | some chain =>
      simp only [Option.some.injEq, forall_eq', ← accepted]
      by_cases called : c.pcb = false ∨ c.arg = false
      · rw [splRecvTcp, if_pos called]
        rcases called with unset | unset <;>
          simp [TcpOwned, times, Effect.kind, errArg, errOk, unset]
      · have set : c.pcb = true ∧ c.arg = true := by simpa using called
        rw [splRecvTcp, if_neg called]
        cases c.alloc chain with
        | none => simp [TcpOwned, set, times, Accounted, errMem, errOk]
        | some buf =>
          have counted := counts chain buf
          by_cases taken : spEnqueue c.target = errOk
          · simp [TcpOwned, set, taken, counted]
          · have other : errMem ≠ errOk := by decide
            simp [TcpOwned, set, taken, counted, other]
  · intro p
    by_cases called : c.pcb = false ∨ c.arg = false
    · rw [splRecvUdp, if_pos called]
      rcases called with unset | unset <;> simp [UdpOwned, times, Accounted, Effect.kind, unset]
    · have set : c.pcb = true ∧ c.arg = true := by simpa using called
      rw [splRecvUdp, if_neg called]
      cases c.alloc p with
      | none => simp [UdpOwned, set, times]
      | some buf => simp [UdpOwned, counts p buf]

/-- With the ring full the chain is freed and refused, and with the pool empty `spl_recv_udp` does
not free it. -/
theorem chain_freed_and_refused :
    (splRecvTcp { openCall with target := .ring 0 } (some [[1]])).1 = errMem ∧
      times 0 (splRecvTcp { openCall with target := .ring 0 } (some [[1]])).2 = 1 ∧
      times 0 (splRecvUdp { openCall with pool := 0 } [[1]]) = 0 := by
  decide

end Dmm.Netconn
