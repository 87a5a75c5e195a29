import Mathlib

/-!
# Sending a frame

`spl_hal_output` copies a pbuf chain into one mbuf, puts this at the end of the interface's transmit
array and calls `spl_hal_send`, which hands the array to the driver, frees what the driver did not
take and marks every mbuf of the array as sent.

The pool, the driver and the table of extension records are outside of the source: their answers
come with each call. What the call does to mbufs is written down as a list of events.
-/

namespace Dmm.Netif.Output

/-- `DEF_MBUF_DATA_SIZE`. -/
def defMbufDataSize : Nat := 2048

/-- `PKT_BURST`, the length of a transmit array. -/
def pktBurst : Nat := 32

/-- `SPL_HAL_SEND_TRY`. -/
def splHalSendTry : Nat := 100000

/-- One call of `spl_hal_output`. -/
structure Call where
  /-- `pnetif->num`. -/
  netif : Nat
  /-- The data of the pbufs. -/
  chain : List (List UInt8)
  /-- The mbuf that `spl_pbuf_alloc_hugepage` finds. -/
  pool : Option Nat
  /-- Whether `getNetifExt` finds the record. -/
  ext : Bool
  /-- What the successive calls of `hal_send_packet` take. -/
  driver : List Nat
  deriving DecidableEq, Repr

/-- What happens to an mbuf. -/
inductive Event
  | alloc (mbuf : Nat) (bytes : List UInt8)
  | touch (mbuf : Nat)
  | store (index : Nat)
  | accept (mbuf : Nat) (frame : List UInt8)
  | free (mbuf : Nat)
  | ret
  deriving DecidableEq, Repr

/-- The transmit arrays, up to `tx.num`, and the data of the mbufs. -/
structure Hal where
  tx : Nat → List Nat
  data : Nat → List UInt8

/-- `buf->tot_len`. -/
def Call.totLen (c : Call) : Nat := c.chain.flatten.length

/-- The mbuf a call obtains. A chain that is too long is refused before, and `spl_mbuf_malloc` gives
nothing for no bytes. -/
def Call.obtains (c : Call) : Option Nat :=
  if defMbufDataSize < c.totLen then none else if c.totLen = 0 then none else c.pool

/-- `pbuf_to_splpbuf_copy`: what it has copied, and whether it returns `ERR_OK`. -/
def pbufToSplpbufCopy : List (List UInt8) → List UInt8 → List UInt8 × Bool
  | [], copied => (copied, true)
  | data :: next, copied =>
    if 2048 ≤ (copied ++ data).length then (copied ++ data, false)
    else pbufToSplpbufCopy next (copied ++ data)

/-- The loop of `spl_hal_send`: how many of the `txNum` mbufs the driver takes in so many tries. -/
def sendLoop (txNum : Nat) : (tries : Nat) → (driver : List Nat) → (sent : Nat) → Nat
  | 0, _, sent => sent
  | tries + 1, driver, sent =>
    let sent := sent + min (driver.headD 0) (txNum - sent)
    if sent = txNum then sent else sendLoop txNum tries driver.tail sent

/-- `spl_hal_send` with an extension record: the array goes to the driver, the rest is freed and all
of it is marked. -/
def handOver (data : Nat → List UInt8) (tx : List Nat) (driver : List Nat) : List Event :=
  let sent := sendLoop tx.length (splHalSendTry + 1) driver 0
  (tx.take sent).map (fun m => .accept m (data m)) ++ (tx.drop sent).map .free

/-- `spl_hal_send`: its events and the array it leaves. -/
def splHalSend (data : Nat → List UInt8) (tx : List Nat) (c : Call) : List Event × List Nat :=
  if c.ext then (tx.map .touch ++ handOver data tx c.driver ++ tx.map .touch, [])
  else (tx.map .touch, tx)

section

-- what `spl_hal_set_cksum` makes of the bytes of a frame
variable (cksum : List UInt8 → List UInt8)

/-- `spl_hal_output`. -/
def splHalOutput (h : Hal) (c : Call) : List Event × Hal :=
  match c.obtains with
  | none => ([.ret], h)
  | some mbuf =>
    let (copied, ok) := pbufToSplpbufCopy c.chain []
    if ok then
      let data := Function.update h.data mbuf (cksum copied)
      let idx := (h.tx c.netif).length
      let (events, tx) := splHalSend data (h.tx c.netif ++ [mbuf]) c
      (.alloc mbuf c.chain.flatten :: .touch mbuf :: .store idx :: events ++ [.ret],
        ⟨Function.update h.tx c.netif tx, data⟩)
    else
      ([.alloc mbuf c.chain.flatten, .touch mbuf, .ret],
        { h with data := Function.update h.data mbuf copied })

/-- The events of a sequence of calls. -/
def events : Hal → List Call → List Event
  | _, [] => []
  | h, c :: cs => (splHalOutput cksum h c).1 ++ events (splHalOutput cksum h c).2 cs

/-- The arrays are empty at first. -/
def Hal.init (data : Nat → List UInt8) : Hal := ⟨fun _ => [], data⟩

/-! ## What the calls should do -/

/-- The mbuf leaves the stack. -/
def HandedOver (mbuf : Nat) (e : Event) : Prop := e = .free mbuf ∨ ∃ f, e = .accept mbuf f

/-- The stack does something with the mbuf. -/
def Uses (mbuf : Nat) (e : Event) : Prop := e = .touch mbuf ∨ HandedOver mbuf e

/-- The event does not obtain the mbuf anew. -/
def notAlloc (mbuf : Nat) : Event → Bool
  | .alloc m _ => m ≠ mbuf
  | _ => true

/-- What is to happen to an mbuf after it was obtained for some bytes: before the call returns it is
accepted with these bytes or freed, and up to the next time it is obtained nothing is done with it.
-/
def Settled (mbuf : Nat) (bytes : List UInt8) (after : List Event) : Prop :=
  ∃ before e rest, after = before ++ e :: rest ∧ .ret ∉ before ∧
    (∀ x ∈ before, ¬ HandedOver mbuf x) ∧ HandedOver mbuf e ∧
    (∀ f, e = .accept mbuf f → f = cksum bytes) ∧
    ∀ x ∈ rest.takeWhile (notAlloc mbuf), ¬ Uses mbuf x

/-- Every mbuf is settled and every index is inside of the array. -/
def ResourcesKept (log : List Event) : Prop :=
  (∀ earlier mbuf bytes after, log = earlier ++ .alloc mbuf bytes :: after →
    Settled cksum mbuf bytes after) ∧
  ∀ index, .store index ∈ log → index < pktBurst

/-! ## A call that obtains an mbuf -/

variable {cksum}

/-- The events between the allocation and the return, when there is one. -/
def Spoiled (mbuf : Nat) (body : List Event) : Prop :=
  ∀ before e rest, body = before ++ e :: rest → HandedOver mbuf e →
    .touch mbuf ∈ rest

/-- Nothing is obtained and nothing returns in between. -/
def Inner (body : List Event) : Prop := ∀ e ∈ body, e ≠ .ret ∧ ∀ m b, e ≠ .alloc m b

theorem not_handedOver_touch {mbuf : Nat} {tx : List Nat} :
    ∀ e ∈ tx.map Event.touch, ¬ HandedOver mbuf e := by
  intro e held handed
  obtain ⟨m, -, rfl⟩ := List.mem_map.mp held
  obtain h | ⟨f, h⟩ := handed <;> cases h

/-- An mbuf that is marked at the end is spoiled, whatever comes before. -/
theorem spoiled_append {mbuf : Nat} (body : List Event) {marks : List Event}
    (plain : ∀ e ∈ marks, ¬ HandedOver mbuf e) (marked : .touch mbuf ∈ marks) :
    Spoiled mbuf (body ++ marks) := by
  intro before e rest eq handed
  obtain ⟨mid, rfl, tail⟩ | ⟨mid, rfl, tail⟩ := List.append_eq_append_iff.mp eq
  · -- the hand-over would be one of the marks
    exact absurd handed (plain e (by simp [tail]))
  · cases mid with
    | nil =>
      have held : e ∈ marks := (show e :: rest = marks from tail) ▸ List.mem_cons_self
      exact absurd handed (plain e held)
    | cons x mid =>
      obtain ⟨rfl, rfl⟩ := List.cons.inj tail
      exact List.mem_append_right _ marked

/-- The mbuf of a call is left behind or used after it was handed over. -/
theorem splHalOutput_spoiled (h : Hal) {c : Call} {mbuf : Nat} (got : c.obtains = some mbuf) :
    ∃ body, (splHalOutput cksum h c).1 = .alloc mbuf c.chain.flatten :: body ++ [.ret] ∧
      Inner body ∧ Spoiled mbuf body := by
  rcases copy : pbufToSplpbufCopy c.chain [] with ⟨copied, ok⟩
  cases ok with
  | false =>
    refine ⟨[.touch mbuf], by simp [splHalOutput, got, copy], by simp [Inner], ?_⟩
    have bare : ∀ e ∈ [Event.touch mbuf], ¬ HandedOver mbuf e :=
      @not_handedOver_touch mbuf [mbuf]
    exact spoiled_append [] bare List.mem_cons_self
  | true =>
    let tx := h.tx c.netif ++ [mbuf]
    let data := Function.update h.data mbuf (cksum copied)
    have marked : .touch mbuf ∈ tx.map Event.touch := by simp [tx]
    cases ext : c.ext with
    | false =>
      -- without a record the mbuf stays in the array
      refine ⟨.touch mbuf :: .store (h.tx c.netif).length :: [] ++ tx.map .touch, ?_, ?_, ?_⟩
      · simp [splHalOutput, got, copy, splHalSend, ext, tx]
      · simp [Inner]
      · exact spoiled_append _ not_handedOver_touch marked
    | true =>
      refine ⟨(.touch mbuf :: .store (h.tx c.netif).length :: tx.map .touch ++
        handOver data tx c.driver) ++ tx.map .touch, ?_, ?_, ?_⟩
      · simp [splHalOutput, got, copy, splHalSend, ext, tx, data]
      · simp [Inner, handOver]
        grind
      · exact spoiled_append _ not_handedOver_touch marked

/-- An mbuf is not settled by such events. -/
theorem not_settled {mbuf : Nat} {bytes : List UInt8} {body later : List Event}
    (inner : Inner body) (spoiled : Spoiled mbuf body) :
    ¬ Settled cksum mbuf bytes (body ++ .ret :: later) := by
  rintro ⟨before, e, rest, eq, inside, -, handed, -, unused⟩
  obtain ⟨mid, rfl, tail⟩ | ⟨mid, rfl, tail⟩ := List.append_eq_append_iff.mp eq
  · -- the hand-over would come after the return
    cases mid with
    | nil =>
      obtain ⟨rfl, -⟩ := List.cons.inj tail
      obtain h | ⟨f, h⟩ := handed <;> cases h
    | cons x mid =>
      obtain ⟨rfl, -⟩ := List.cons.inj tail
      simp at inside
  · cases mid with
    | nil =>
      obtain ⟨rfl, -⟩ := List.cons.inj tail
      obtain h | ⟨f, h⟩ := handed <;> cases h
    | cons x mid =>
      obtain ⟨rfl, rfl⟩ := List.cons.inj tail
      have mark : .touch mbuf ∈ mid := spoiled before e mid rfl handed
      have kept : ∀ y ∈ mid, notAlloc mbuf y = true := by
        intro y held
        have fresh := (inner y (by simp [held])).2
        cases y <;> simp_all [notAlloc]
      rw [List.append_eq, List.takeWhile_append_of_pos kept] at unused
      exact unused _ (List.mem_append_left _ mark) (.inl rfl)

theorem events_eq_replicate (h : Hal) {cs : List Call} (refused : ∀ c ∈ cs, c.obtains = none) :
    events cksum h cs = List.replicate cs.length .ret := by
  induction cs with
  | nil => rfl
  | cons c cs ih =>
    have none := refused c List.mem_cons_self
    simp [events, splHalOutput, none, ih fun c held => refused c (List.mem_cons_of_mem _ held),
      List.replicate_succ]

theorem events_append (h : Hal) (cs ds : List Call) :
    ∃ h', events cksum h (cs ++ ds) = events cksum h cs ++ events cksum h' ds := by
  induction cs generalizing h with
  | nil => exact ⟨h, rfl⟩
  | cons c cs ih =>
    obtain ⟨h', eq⟩ := ih (splHalOutput cksum h c).2
    exact ⟨h', by simp [events, eq]⟩

theorem not_resourcesKept (h : Hal) {cs : List Call} {c : Call} (held : c ∈ cs) {mbuf : Nat}
    (got : c.obtains = some mbuf) : ¬ ResourcesKept cksum (events cksum h cs) := by
  obtain ⟨before, after, rfl⟩ := List.append_of_mem held
  obtain ⟨h', eq⟩ := @events_append cksum h before (c :: after)
  obtain ⟨body, call, inner, spoiled⟩ := @splHalOutput_spoiled cksum h' c mbuf got
  intro kept
  have settled := kept.1 (events cksum h before) mbuf c.chain.flatten
    (body ++ .ret :: events cksum (splHalOutput cksum h' c).2 after) (by simp [eq, events, call])
  exact not_settled inner spoiled settled

/-- Mbufs, indices and frames are as they should be exactly when no call obtains an mbuf. -/
theorem output_resources_iff (data : Nat → List UInt8) (cs : List Call) :
    ResourcesKept cksum (events cksum (.init data) cs) ↔ ∀ c ∈ cs, c.obtains = none := by
  constructor
  · intro kept c held
    cases got : c.obtains with
    | none => rfl
    | some mbuf => exact absurd kept (not_resourcesKept _ held got)
  · intro refused
    rw [events_eq_replicate _ refused]
    constructor
    · intro earlier mbuf bytes after eq
      have held : Event.alloc mbuf bytes ∈ List.replicate cs.length Event.ret := by simp [eq]
      cases List.eq_of_mem_replicate held
    · intro index held
      cases List.eq_of_mem_replicate held

end

/-- One frame of one byte, which the driver takes at once: it is marked after that. -/
theorem accepted_mbuf_marked :
    let c : Call := ⟨0, [[7]], some 5, true, [1]⟩
    events id (.init fun _ => []) [c] =
      [.alloc 5 [7], .touch 5, .store 0, .touch 5, .accept 5 [7], .touch 5, .ret] ∧
    ¬ ResourcesKept id (events id (.init fun _ => []) [c]) :=
  ⟨by simp [events, splHalOutput, Call.obtains, Call.totLen, defMbufDataSize, pbufToSplpbufCopy,
      splHalSend, handOver, sendLoop, Hal.init],
    not_resourcesKept _ List.mem_cons_self (show _ = some 5 by decide)⟩

end Dmm.Netif.Output
