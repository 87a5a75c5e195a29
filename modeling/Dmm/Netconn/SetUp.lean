import Dmm.Tcp.WriteQueue
import Mathlib

/-!
# Setting up a connection

`spl_pcb_new` gives a netconn a pcb of lwIP and a `common_pcb`; `spl_accept_function` takes a
netconn from the pool for a pcb that lwIP has made and puts it on the accept ring of the listening
netconn. Three kinds of objects are linked in both directions. What the allocators and the ring
answer comes with the call.

A `common_pcb` is released only if the flag of its `res_chk` is set, and nothing sets it when the
object is allocated.
-/

namespace Dmm.Netconn.SetUp

open Dmm.Tcp Function

/-- The objects of a connection. -/
inductive Obj
  | conn (id : Nat)
  | cpcb (id : Nat)
  | pcb (id : Nat)
  deriving DecidableEq, Repr

/-- The links between objects, the `res_chk` flags and what has been released. -/
structure Heap where
  /-- `conn->comm_pcb_data` -/
  commPcbData : Nat → Option Nat
  /-- `conn->private_data` -/
  privateData : Nat → Option Nat
  /-- `cpcb->conn` -/
  cpcbConn : Nat → Option Nat
  /-- `cpcb->res_chk.alloc_flag` -/
  allocFlag : Nat → Bool
  /-- The argument of a pcb's callbacks. -/
  callbackArg : Nat → Option Nat
  /-- The netconns on the accept ring of a netconn. -/
  acceptRing : Nat → List Nat
  released : List Obj

/-- One object points to another. -/
def Heap.Refers (h : Heap) : Obj → Obj → Prop
  | .conn c, .cpcb b => h.commPcbData c = some b
  | .conn c, .pcb p => h.privateData c = some p
  | .conn l, .conn c => c ∈ h.acceptRing l
  | .cpcb b, .conn c => h.cpcbConn b = some c
  | .pcb p, .conn c => h.callbackArg p = some c
  | _, _ => False

/-- What a call returns, what it has obtained, and the heap it leaves. -/
structure Outcome where
  ret : Int
  obtained : List Obj
  heap : Heap

/-- `ERR_VAL` -/
def errVal : Int := -6

/-! ## The functions -/

/-- `SPL_NETCONNTYPE_GROUP` of a message. -/
inductive Group
  | udp
  | tcp
  | other
  deriving DecidableEq, Repr

/-- The links of a netconn, its `common_pcb` and its pcb, as `setup_tcp` and the code around it
set them; with UDP `udp_recv` and the end of `spl_pcb_new` do. -/
def Heap.link (h : Heap) (conn cpcb pcb : Nat) : Heap :=
  { h with
    commPcbData := update h.commPcbData conn (some cpcb)
    privateData := update h.privateData conn (some pcb)
    cpcbConn := update h.cpcbConn cpcb (some conn)
    callbackArg := update h.callbackArg pcb (some conn) }

/-- `spl_pcb_new` for a netconn. -/
def splPcbNew (group : Group) (pcb cpcb : Option Nat) (conn : Nat) (h : Heap) : Outcome :=
  if group = .other then ⟨errVal, [], h⟩ else
  match pcb, cpcb with
  | none, _ => ⟨errMem, [], h⟩
  | some p, none => ⟨errMem, [.pcb p], h⟩
  | some p, some b => ⟨errOk, [.pcb p, .cpcb b], h.link conn b p⟩

/-- `MAX_TRY_GET_MEMORY_TIMES` -/
def maxTryGetMemoryTimes : Nat := 4

/-- The loop of `accept_enqueue`, over what the ring answers. -/
def tryEnqueue : Nat → List Int → Int
  | 0, _ => errMem
  | tries + 1, answers =>
    if answers.headD 0 = 1 then errOk
    else if answers.headD 0 = 0 then tryEnqueue tries answers.tail
    else errVal

/-- `accept_enqueue`: the result of it; `none` is a connection without a ring. -/
def acceptEnqueue : Option (List Int) → Int
  | none => errVal
  | some answers => tryEnqueue maxTryGetMemoryTimes answers

/-- `free_common_pcb` -/
def freeCommonPcb (cpcb : Nat) (h : Heap) : Heap :=
  if h.allocFlag cpcb then
    { h with
      allocFlag := update h.allocFlag cpcb false
      cpcbConn := update h.cpcbConn cpcb none
      released := .cpcb cpcb :: h.released }
  else h

/-- `ss_free_conn`: the reset leaves `comm_pcb_data`. -/
def ssFreeConn (conn : Nat) (h : Heap) : Heap :=
  { h with privateData := update h.privateData conn none, released := .conn conn :: h.released }

/-- `tcp_drop_conn` of a netconn with its `common_pcb` and pcb. -/
def tcpDropConn (conn cpcb pcb : Nat) (h : Heap) : Heap :=
  let h := ssFreeConn conn (freeCommonPcb cpcb h)
  { h with released := .pcb pcb :: h.released }

/-- `spl_accept_function` for the pcb that lwIP has made. -/
def splAcceptFunction (lconn : Option Nat) (newpcb : Nat) (newconn cpcb : Option Nat)
    (ring : Option (List Int)) (h : Heap) : Outcome :=
  match lconn, newconn, cpcb with
  | none, _, _ => ⟨errVal, [], h⟩
  | some _, none, _ => ⟨errMem, [], h⟩
  | some _, some c, none => ⟨errMem, [.conn c], h⟩
  | some l, some c, some b =>
    if acceptEnqueue ring = errOk then
      let h := h.link c b newpcb
      ⟨errOk, [.conn c, .cpcb b],
        { h with acceptRing := update h.acceptRing l (c :: h.acceptRing l) }⟩
    else
      let h := h.link c b newpcb
      ⟨errMem, [.conn c, .cpcb b],
        tcpDropConn c b newpcb { h with callbackArg := update h.callbackArg newpcb none }⟩

/-! ## All or nothing -/

/-- After an error every object obtained is released once, and nothing points to a released object;
after success the three objects point to each other. -/
def Outcome.AllOrNothing (o : Outcome) (conn cpcb pcb : Option Nat) : Prop :=
  (o.ret ≠ errOk → (∀ x ∈ o.obtained, o.heap.released.count x = 1) ∧
    ∀ x ∈ o.heap.released, ∀ y, ¬ o.heap.Refers y x) ∧
  (o.ret = errOk → ∃ c b p, conn = some c ∧ cpcb = some b ∧ pcb = some p ∧
    o.heap.Refers (.conn c) (.cpcb b) ∧ o.heap.Refers (.cpcb b) (.conn c) ∧
    o.heap.Refers (.conn c) (.pcb p) ∧ o.heap.Refers (.pcb p) (.conn c))

theorem link_refers (h : Heap) (c b p : Nat) :
    (h.link c b p).Refers (.conn c) (.cpcb b) ∧ (h.link c b p).Refers (.cpcb b) (.conn c) ∧
      (h.link c b p).Refers (.conn c) (.pcb p) ∧ (h.link c b p).Refers (.pcb p) (.conn c) := by
  simp [Heap.Refers, Heap.link]

/-- Nothing obtained and nothing released is all or nothing for an error. -/
theorem allOrNothing_nothing {ret : Int} (failed : ret ≠ errOk) {h : Heap} (new : h.released = [])
    (conn cpcb pcb : Option Nat) : Outcome.AllOrNothing ⟨ret, [], h⟩ conn cpcb pcb :=
  ⟨fun _ => ⟨by simp, by simp [new]⟩, fun ok => absurd ok failed⟩

theorem not_allOrNothing_left {ret : Int} (failed : ret ≠ errOk) {h : Heap} {x : Obj}
    {obtained : List Obj} (got : x ∈ obtained) (kept : x ∉ h.released)
    (conn cpcb pcb : Option Nat) :
    ¬ Outcome.AllOrNothing ⟨ret, obtained, h⟩ conn cpcb pcb := by
  intro all
  have once := (all.1 failed).1 x got
  rw [List.count_eq_zero_of_not_mem kept] at once
  omega

/-- Dropping a linked netconn leaves its `common_pcb` or a pointer to it. -/
theorem not_allOrNothing_drop {h : Heap} (new : h.released = []) (c b p : Nat)
    (conn cpcb pcb : Option Nat) :
    ¬ Outcome.AllOrNothing ⟨errMem, [.conn c, .cpcb b], tcpDropConn c b p
      { h.link c b p with callbackArg := update (h.link c b p).callbackArg p none }⟩
      conn cpcb pcb := by
  by_cases flag : h.allocFlag b
  · intro all
    refine (all.1 (show errMem ≠ errOk by decide)).2 (.cpcb b) ?_ (.conn c) ?_
    · simp [tcpDropConn, ssFreeConn, freeCommonPcb, Heap.link, flag]
    · simp [tcpDropConn, ssFreeConn, freeCommonPcb, Heap.link, flag, Heap.Refers]
  · refine not_allOrNothing_left (by decide) (x := .cpcb b) (by simp) ?_ _ _ _
    simp [tcpDropConn, ssFreeConn, freeCommonPcb, Heap.link, flag, new]

/-- Set-up is all or nothing exactly when the call succeeds or fails before it has obtained
anything: `spl_pcb_new` unless it has a pcb and no `common_pcb`, `spl_accept_function` unless it has
a netconn and no `common_pcb` or no place on the ring. -/
theorem setUp_allOrNothing_iff (h : Heap) (new : h.released = []) :
    (∀ group pcb cpcb conn,
      (splPcbNew group pcb cpcb conn h).AllOrNothing (some conn) cpcb pcb ↔
        ¬ (group ≠ .other ∧ pcb.isSome ∧ cpcb = none)) ∧
    ∀ lconn newpcb newconn cpcb ring,
      (splAcceptFunction lconn newpcb newconn cpcb ring h).AllOrNothing newconn cpcb (some newpcb) ↔
        ¬ (lconn.isSome ∧ newconn.isSome ∧ (cpcb = none ∨ acceptEnqueue ring ≠ errOk)) := by
  constructor
  · intro group pcb cpcb conn
    by_cases other : group = .other
    · simpa [splPcbNew, other] using allOrNothing_nothing (by decide) new _ _ _
    · match pcb, cpcb with
      | none, _ => simpa [splPcbNew, other] using allOrNothing_nothing (by decide) new _ _ _
      | some p, none =>
        have left := not_allOrNothing_left (h := h) (show errMem ≠ errOk by decide)
          (List.mem_singleton_self (Obj.pcb p)) (by simp [new]) (some conn) none (some p)
        simpa [splPcbNew, other] using left
      | some p, some b =>
        have linked := link_refers h conn b p
        simp only [splPcbNew, other, if_false]
        refine iff_of_true ⟨fun failed => absurd rfl failed, fun _ => ?_⟩ (by simp)
        exact ⟨conn, b, p, rfl, rfl, rfl, linked⟩
  · intro lconn newpcb newconn cpcb ring
    match lconn, newconn, cpcb with
    | none, _, _ =>
      simpa [splAcceptFunction] using allOrNothing_nothing (by decide) new _ _ _
    | some _, none, _ =>
      simpa [splAcceptFunction] using allOrNothing_nothing (by decide) new _ _ _
    | some _, some c, none =>
      have left := not_allOrNothing_left (h := h) (show errMem ≠ errOk by decide)
        (List.mem_singleton_self (Obj.conn c)) (by simp [new]) (some c) none (some newpcb)
      simpa [splAcceptFunction] using left
    | some l, some c, some b =>
      by_cases queued : acceptEnqueue ring = errOk
      · have linked := link_refers h c b newpcb
        simp only [splAcceptFunction, if_pos queued]
        refine iff_of_true ⟨fun failed => absurd rfl failed, fun _ => ?_⟩ (by simp [queued])
        exact ⟨c, b, newpcb, rfl, rfl, rfl, linked⟩
      · have dropped := not_allOrNothing_drop new c b newpcb (some c) (some b) (some newpcb)
        simpa [splAcceptFunction, queued] using dropped

/-- A heap in which nothing is linked. -/
def Heap.empty : Heap :=
  ⟨fun _ => none, fun _ => none, fun _ => none, fun _ => false, fun _ => none, fun _ => [], []⟩

/-- With both objects a new TCP netconn is set up. -/
theorem setUp_allOrNothing_empty :
    (splPcbNew .tcp (some 1) (some 2) 3 .empty).AllOrNothing (some 3) (some 2) (some 1) :=
  ((setUp_allOrNothing_iff .empty rfl).1 .tcp (some 1) (some 2) 3).mpr (by simp)

/-- Without a `common_pcb` the new TCP pcb is left behind. -/
theorem pcb_left_behind :
    (splPcbNew .tcp (some 1) none 3 .empty).ret = errMem ∧
      (splPcbNew .tcp (some 1) none 3 .empty).obtained = [.pcb 1] ∧
      (splPcbNew .tcp (some 1) none 3 .empty).heap.released = [] ∧
      ¬ (splPcbNew .tcp (some 1) none 3 .empty).AllOrNothing (some 3) none (some 1) :=
  ⟨rfl, rfl, rfl, not_allOrNothing_left (by decide) (List.mem_singleton_self (Obj.pcb 1))
    (by simp [Heap.empty]) _ _ _⟩

end Dmm.Netconn.SetUp
