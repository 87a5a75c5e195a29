import Dmm.Ps.MemReq

/-!
# Bounds of a memory request

The number of items is the length the peer supplies over the size of an item, and nothing
compares it with the size of the message. The names are copied up to their terminator, wherever
it is. What the accesses stay inside of is stated exactly: for each item that is reached, its
fields and its name with the terminator have to lie in the request, and the name in the local
buffers.
-/

namespace Dmm.Ps.MemReq

open Dmm.Bytes Dmm.Mgr

/-! ## Inside -/

/-- An access stays inside, for a request and a response of these sizes. -/
def Access.Inside (reqCap rspCap : Nat) : Access → Prop
  | .request off len => off + len ≤ reqCap
  | .response off len => off + len ≤ rspCap
  | .argv off len => off + len ≤ memCallArgBuf
  | .memFree off len => off + len ≤ sizeofTypeInfo

instance (reqCap rspCap : Nat) : DecidablePred (Access.Inside reqCap rspCap)
  | .request _ _ | .response _ _ | .argv _ _ | .memFree _ _ => inferInstanceAs (Decidable (_ ≤ _))

/-- All accesses so far stayed inside. -/
def World.Safe (reqCap rspCap : Nat) (w : World) : Prop :=
  ∀ a ∈ w.log, a.Inside reqCap rspCap

instance (reqCap rspCap : Nat) (w : World) : Decidable (w.Safe reqCap rspCap) :=
  inferInstanceAs (Decidable (∀ a ∈ w.log, a.Inside reqCap rspCap))

theorem World.safe_note {reqCap rspCap : Nat} (w : World) (accesses : List Access) :
    (w.note accesses).Safe reqCap rspCap ↔
      w.Safe reqCap rspCap ∧ ∀ a ∈ accesses, a.Inside reqCap rspCap := by
  simp [Safe, note, or_imp, forall_and]

/-- The sequence number of an item is in the request, and its acknowledgement in the response. -/
def SeqFits (reqCap rspCap : Nat) (cfg : ItemCfg) (i : Nat) : Prop :=
  itemOff cfg i + 34 ≤ reqCap ∧ ackOff i + 11 ≤ rspCap

instance (reqCap rspCap : Nat) (cfg : ItemCfg) (i : Nat) :
    Decidable (SeqFits reqCap rspCap cfg i) :=
  inferInstanceAs (Decidable (_ ∧ _))

/-- The fields of an item and its name are in the request, and the name fits into `argv_buf`. -/
def ItemFits (req : Buf) (cfg : ItemCfg) (i : Nat) : Prop :=
  (∀ field ∈ cfg.fields, itemOff cfg i + field.src + field.srcWidth ≤ req.cap) ∧
    itemOff cfg i + nameLen req cfg i < req.cap ∧
    nameOff + nameLen req cfg i < memCallArgBuf

instance (req : Buf) (cfg : ItemCfg) (i : Nat) : Decidable (ItemFits req cfg i) :=
  inferInstanceAs (Decidable (_ ∧ _ ∧ _))

/-- The name of an item fits into `mem_free`. -/
def FreeFits (req : Buf) (cfg : ItemCfg) (j : Nat) : Prop :=
  itemOff cfg j + nameLen req cfg j < req.cap ∧ nameOff + nameLen req cfg j < sizeofTypeInfo

instance (req : Buf) (cfg : ItemCfg) (j : Nat) : Decidable (FreeFits req cfg j) :=
  inferInstanceAs (Decidable (_ ∧ _))

/-- The objects after the creation of `n` items from item `i` on, if all of them succeed. -/
def createdFrom (req : Buf) (cfg : ItemCfg) : Nat → Nat → Store → Option Store
  | _, 0, s => some s
  | i, n + 1, s =>
    let (addr, s) := procItem req cfg i s
    if addr = 0 then none else createdFrom req cfg (i + 1) n s

theorem createdFrom_cons (req : Buf) (cfg : ItemCfg) (i n : Nat) (s : Store) :
    createdFrom req cfg i (n + 1) s = if (procItem req cfg i s).1 = 0 then none
      else createdFrom req cfg (i + 1) n (procItem req cfg i s).2 := rfl

/-- The condition of a request that creates objects, from item `i` on, when `n` are left: those
that are reached fit, and at a failure the names before it fit into `mem_free`. -/
def CreationFits (req : Buf) (cfg : ItemCfg) (i n : Nat) (s : Store) : Prop :=
  ∀ k < n, (createdFrom req cfg i k s).isSome → ItemFits req cfg (i + k) ∧
    ((createdFrom req cfg i (k + 1) s).isNone → ∀ j < i + k, FreeFits req cfg j)

instance (req : Buf) (cfg : ItemCfg) (i n : Nat) (s : Store) :
    Decidable (CreationFits req cfg i n s) :=
  inferInstanceAs (Decidable (∀ k < n, _ → _ ∧ (_ → _)))

/-- The condition of what the `switch` does with the items. -/
structure ServeFits (req : Buf) (cfg : ItemCfg) (s : Store) : Prop where
  served : usmsgType req = memLookupReqMsg ∨ usmsgType req = releaseReqMsg →
    ∀ i < memCount req cfg, ItemFits req cfg i
  created : Creates (usmsgType req) → CreationFits req cfg 0 (memCount req cfg) s

instance (req : Buf) (cfg : ItemCfg) (s : Store) : Decidable (ServeFits req cfg s) :=
  decidable_of_iff
    ((usmsgType req = memLookupReqMsg ∨ usmsgType req = releaseReqMsg →
        ∀ i < memCount req cfg, ItemFits req cfg i) ∧
      (Creates (usmsgType req) → CreationFits req cfg 0 (memCount req cfg) s))
    ⟨fun both => ⟨both.1, both.2⟩, fun fits => ⟨fits.served, fits.created⟩⟩

/-- The condition of a request: the items its length announces, and those that are reached. A
request of an unknown type is not looked at further. -/
def Meets (req rsp : Buf) (s : Store) : Prop :=
  ∀ cfg ∈ memItemGetCfgFromMsg (usmsgType req),
    (∀ i < memCount req cfg, SeqFits req.cap rsp.cap cfg i) ∧ ServeFits req cfg s

instance (req rsp : Buf) (s : Store) : Decidable (Meets req rsp s) :=
  inferInstanceAs (Decidable (∀ cfg ∈ memItemGetCfgFromMsg (usmsgType req), _ ∧ _))

/-! ## One item -/

theorem fields_dst {cfg : ItemCfg} (known : cfg ∈ psMemMap) :
    ∀ field ∈ cfg.fields, field.dst + field.dstWidth ≤ memCallArgBuf := by
  have all : ∀ cfg ∈ psMemMap, ∀ field ∈ cfg.fields,
      field.dst + field.dstWidth ≤ memCallArgBuf := by decide
  exact all cfg known

/-- What `mem_item_get_callargv` accesses is inside exactly when the item fits. -/
theorem callargvAccesses_inside {req : Buf} {rspCap : Nat} {cfg : ItemCfg}
    (known : cfg ∈ psMemMap) (i : Nat) :
    (∀ a ∈ callargvAccesses req cfg i, a.Inside req.cap rspCap) ↔ ItemFits req cfg i := by
  have dst := fields_dst known
  unfold callargvAccesses ItemFits
  constructor
  · intro inside
    refine ⟨fun field mem => ?_, ?_, ?_⟩
    · exact inside (.request (itemOff cfg i + field.src) field.srcWidth)
        (List.mem_append_left _ (List.mem_flatMap.mpr ⟨field, mem, by simp⟩))
    · have name := inside (.request (itemOff cfg i) (nameLen req cfg i + 1)) (by simp)
      simp only [Access.Inside] at name
      omega
    · have name := inside (.argv nameOff (nameLen req cfg i + 1)) (by simp)
      simp only [Access.Inside] at name
      omega
  · intro fits a mem
    cases List.mem_append.mp mem with
    | inl early =>
      obtain ⟨field, listed, here⟩ := List.mem_flatMap.mp early
      simp only [List.mem_cons, List.not_mem_nil, or_false] at here
      cases here with
      | inl read =>
        rw [read]
        exact fits.1 field listed
      | inr written =>
        rw [written]
        exact dst field listed
    | inr late =>
      simp only [List.mem_cons, List.not_mem_nil, or_false] at late
      rcases late with read | written | entype
      · rw [read]
        simp only [Access.Inside]
        omega
      · rw [written]
        simp only [Access.Inside]
        omega
      · rw [entype]
        simp only [Access.Inside, memCallArgBuf]
        omega

theorem memItemProcByMsg_fst (req : Buf) (cfg : ItemCfg) (i : Nat) (w : World) :
    (memItemProcByMsg req cfg i w).1 = (procItem req cfg i w.store).1 := by
  simp only [memItemProcByMsg, World.note]

theorem memItemProcByMsg_store (req : Buf) (cfg : ItemCfg) (i : Nat) (w : World) :
    (memItemProcByMsg req cfg i w).2.store = (procItem req cfg i w.store).2 := by
  simp only [memItemProcByMsg, World.note]

theorem memItemProcByMsg_safe (req : Buf) (rspCap : Nat) {cfg : ItemCfg}
    (known : cfg ∈ psMemMap) (i : Nat) (w : World) :
    (memItemProcByMsg req cfg i w).2.Safe req.cap rspCap ↔
      w.Safe req.cap rspCap ∧ ItemFits req cfg i := by
  rw [← callargvAccesses_inside known i, ← World.safe_note]
  rfl

/-- An acknowledgement of success is inside exactly when it lies in the response. -/
theorem ackSucc_safe {reqCap rspCap : Nat} (i : Nat) (addr : UInt64) (s : Buf × World) :
    (ackSucc i addr s).2.Safe reqCap rspCap ↔
      s.2.Safe reqCap rspCap ∧ ackOff i + 11 ≤ rspCap := by
  unfold ackSucc
  dsimp only
  rw [World.safe_note]
  simp only [List.mem_cons, List.not_mem_nil, or_false, forall_eq_or_imp, forall_eq,
    Access.Inside]
  constructor
  · intro safe
    exact ⟨safe.1, by omega⟩
  · intro safe
    exact ⟨safe.1, by omega, by omega⟩

/-- An acknowledgement of failure is inside exactly when it lies in the response and its sequence
number in the request. -/
theorem initAck_safe {req : Buf} {rspCap : Nat} (cfg : ItemCfg) (s : Buf × World) (i : Nat) :
    (initAck req cfg s i).2.Safe req.cap rspCap ↔
      s.2.Safe req.cap rspCap ∧ SeqFits req.cap rspCap cfg i := by
  unfold initAck SeqFits
  dsimp only
  rw [World.safe_note]
  simp only [List.mem_cons, List.not_mem_nil, or_false, forall_eq_or_imp, forall_eq,
    Access.Inside]
  constructor
  · intro safe
    exact ⟨safe.1, by omega, by omega⟩
  · intro safe
    exact ⟨safe.1, by omega, by omega, by omega, by omega⟩

/-- A fold over the items is inside exactly when each of its steps is. -/
theorem foldl_safe {σ : Type} {step : σ → Nat → σ} (world : σ → World) {reqCap rspCap : Nat}
    {fits : Nat → Prop} (n : Nat)
    (each : ∀ s, ∀ i < n, (world (step s i)).Safe reqCap rspCap ↔
      (world s).Safe reqCap rspCap ∧ fits i) (s : σ) :
    (world ((List.range n).foldl step s)).Safe reqCap rspCap ↔
      (world s).Safe reqCap rspCap ∧ ∀ i < n, fits i := by
  induction n with
  | zero => simp
  | succ n ih =>
    rw [List.range_succ, List.foldl_append, List.foldl_cons, List.foldl_nil, each _ n (by omega),
      ih (fun s i less => each s i (by omega)), and_assoc]
    exact and_congr_right fun _ => Nat.forall_lt_succ_right.symm

/-- `mem_init_rsp_msg` is inside exactly when the announced items are. -/
theorem memInitRspMsg_safe (req : Buf) (cfg : ItemCfg) (rsp : Buf) {rspCap : Nat}
    (room : sizeofMsg ≤ rspCap) (w : World) :
    (memInitRspMsg req cfg rsp w).2.Safe req.cap rspCap ↔
      w.Safe req.cap rspCap ∧ ∀ i < memCount req cfg, SeqFits req.cap rspCap cfg i := by
  unfold memInitRspMsg
  dsimp only
  rw [foldl_safe Prod.snd _ (fun s i _ => initAck_safe cfg s i), World.safe_note]
  have size : sizeofMsg = 504 := rfl
  simp only [List.mem_cons, List.not_mem_nil, or_false, forall_eq_or_imp, forall_eq,
    Access.Inside]
  constructor
  · intro safe
    exact ⟨safe.1.1, safe.2⟩
  · intro safe
    exact ⟨⟨safe.1, by omega, by omega⟩, safe.2⟩

theorem memInitRspMsg_store (req : Buf) (cfg : ItemCfg) (rsp : Buf) (w : World) :
    (memInitRspMsg req cfg rsp w).2.store = w.store := by
  have each (items : List Nat) (s : Buf × World) :
      (items.foldl (initAck req cfg) s).2.store = s.2.store := by
    induction items generalizing s with
    | nil => rfl
    | cons i items ih => exact ih (initAck req cfg s i)
  exact each _ _

theorem freeItem_safe {req : Buf} {rspCap : Nat} (cfg : ItemCfg) (w : World) (j : Nat) :
    (freeItem req cfg w j).Safe req.cap rspCap ↔
      w.Safe req.cap rspCap ∧ FreeFits req cfg j := by
  have logged : (freeItem req cfg w j).Safe req.cap rspCap ↔
      (w.note [.request (itemOff cfg j) (nameLen req cfg j + 1),
        .memFree nameOff (nameLen req cfg j + 1), .memFree 40 2, .memFree 0 4]).Safe
          req.cap rspCap := Iff.rfl
  rw [logged, World.safe_note]
  simp only [List.mem_cons, List.not_mem_nil, or_false, forall_eq_or_imp, forall_eq,
    Access.Inside, FreeFits, sizeofTypeInfo]
  constructor
  · intro safe
    exact ⟨safe.1, by omega, by omega⟩
  · intro safe
    exact ⟨safe.1, by omega, by omega, by omega, by omega⟩

/-! ## All items -/

theorem serveItem_safe {req : Buf} {rspCap : Nat} {cfg : ItemCfg} (known : cfg ∈ psMemMap)
    (base : UInt64 → UInt64) (s : Buf × World) (i : Nat) (acked : ackOff i + 11 ≤ rspCap) :
    (serveItem req cfg base s i).2.Safe req.cap rspCap ↔
      s.2.Safe req.cap rspCap ∧ ItemFits req cfg i := by
  rw [← memItemProcByMsg_safe req rspCap known i s.2]
  unfold serveItem
  generalize memItemProcByMsg req cfg i s.2 = result
  dsimp only
  split
  · rfl
  · rw [ackSucc_safe]
    exact and_iff_left acked

/-- The condition of a creation, when the next item fails. -/
theorem creationFits_failed {req : Buf} {cfg : ItemCfg} {i n : Nat} {s : Store}
    (failed : (procItem req cfg i s).1 = 0) :
    CreationFits req cfg i (n + 1) s ↔
      ItemFits req cfg i ∧ ∀ j < i, FreeFits req cfg j := by
  have none_after (k : Nat) : createdFrom req cfg i (k + 1) s = none := by
    rw [createdFrom_cons, if_pos failed]
  constructor
  · intro fits
    have first := fits 0 (by omega) rfl
    exact ⟨first.1, first.2 (by rw [none_after]; rfl)⟩
  · intro fits k _ reached
    cases k with
    | zero => exact ⟨fits.1, fun _ => fits.2⟩
    | succ k =>
      rw [none_after] at reached
      exact Bool.noConfusion reached

/-- The condition of a creation, when the next item succeeds. -/
theorem creationFits_succeeded {req : Buf} {cfg : ItemCfg} {i n : Nat} {s : Store}
    (succeeded : (procItem req cfg i s).1 ≠ 0) :
    CreationFits req cfg i (n + 1) s ↔
      ItemFits req cfg i ∧ CreationFits req cfg (i + 1) n (procItem req cfg i s).2 := by
  have after (k : Nat) : createdFrom req cfg i (k + 1) s =
      createdFrom req cfg (i + 1) k (procItem req cfg i s).2 := by
    rw [createdFrom_cons, if_neg succeeded]
  have place (k : Nat) : i + 1 + k = i + (k + 1) := by omega
  constructor
  · intro fits
    refine ⟨(fits 0 (by omega) rfl).1, fun k less reached => ?_⟩
    rw [← after] at reached ⊢
    rw [place]
    exact fits (k + 1) (by omega) reached
  · intro fits k less reached
    cases k with
    | zero =>
      refine ⟨fits.1, fun stopped => ?_⟩
      rw [after] at stopped
      exact Bool.noConfusion stopped
    | succ k =>
      rw [after] at reached ⊢
      rw [← place]
      exact fits.2 k (by omega) reached

/-- The loops of `mem_alloc_mem_by_msg` are inside exactly when the items they reach fit. -/
theorem allocFrom_safe {req : Buf} {rspCap : Nat} {cfg : ItemCfg} (known : cfg ∈ psMemMap)
    (n i : Nat) (acked : ∀ j < i + n, ackOff j + 11 ≤ rspCap) (addr : UInt64)
    (s : Buf × World) :
    (allocFrom req cfg n i addr s).2.2.Safe req.cap rspCap ↔
      s.2.Safe req.cap rspCap ∧ CreationFits req cfg i n s.2.store := by
  induction n generalizing i addr s with
  | zero => exact (and_iff_left (fun k less => absurd less (Nat.not_lt_zero k))).symm
  | succ n ih =>
    have item := memItemProcByMsg_safe req rspCap known i s.2
    have stored := memItemProcByMsg_store req cfg i s.2
    simp only [allocFrom, memItemProcByMsg_fst]
    by_cases failed : (procItem req cfg i s.2.store).1 = 0
    · rw [if_pos failed, creationFits_failed failed, ← and_assoc, ← item]
      exact foldl_safe id i (fun w j _ => freeItem_safe cfg w j) _
    · rw [if_neg failed, creationFits_succeeded failed,
        ih (i + 1) (fun j less => acked j (by omega)), ackSucc_safe, ← and_assoc, ← item, and_assoc,
        ← stored]
      apply and_congr_right
      intro _
      exact and_iff_right (acked i (by omega))

/-! ## No access is forgotten -/

theorem foldl_mono {σ : Type} {step : σ → Nat → σ} (world : σ → World) {reqCap rspCap : Nat}
    (each : ∀ s i, (world (step s i)).Safe reqCap rspCap → (world s).Safe reqCap rspCap)
    (items : List Nat) (s : σ) (safe : (world (items.foldl step s)).Safe reqCap rspCap) :
    (world s).Safe reqCap rspCap := by
  induction items generalizing s with
  | nil => exact safe
  | cons i items ih => exact each s i (ih (step s i) safe)

/-- An item of a lookup or a release is inside only if it started so. -/
theorem serveItem_mono {req : Buf} {rspCap : Nat} {cfg : ItemCfg} (known : cfg ∈ psMemMap)
    {base : UInt64 → UInt64} {s : Buf × World} {i : Nat}
    (safe : (serveItem req cfg base s i).2.Safe req.cap rspCap) : s.2.Safe req.cap rspCap := by
  have item := memItemProcByMsg_safe req rspCap known i s.2
  apply And.left
  apply item.mp
  unfold serveItem at safe
  dsimp only at safe
  split at safe
  · exact safe
  · exact ((ackSucc_safe i _ _).mp safe).1

theorem allocFrom_mono {req : Buf} {rspCap : Nat} {cfg : ItemCfg} (known : cfg ∈ psMemMap)
    {n i : Nat} {addr : UInt64} {s : Buf × World}
    (safe : (allocFrom req cfg n i addr s).2.2.Safe req.cap rspCap) :
    s.2.Safe req.cap rspCap := by
  induction n generalizing i addr s with
  | zero => exact safe
  | succ n ih =>
    have item := memItemProcByMsg_safe req rspCap known i s.2
    apply And.left
    apply item.mp
    simp only [allocFrom] at safe
    split at safe
    · exact foldl_mono id (fun w j stays => ((freeItem_safe cfg w j).mp stays).1) _ _ safe
    · exact ((ackSucc_safe i _ _).mp (ih safe)).1

/-- Serving a request is inside only if it started so. -/
theorem serve_mono {req : Buf} {rspCap : Nat} (room : sizeofMsg ≤ rspCap) {cfg : ItemCfg}
    (known : cfg ∈ psMemMap) {s : Buf × World}
    (safe : (serve req cfg s).2.Safe req.cap rspCap) : s.2.Safe req.cap rspCap := by
  unfold serve at safe
  split at safe
  · exact foldl_mono Prod.snd (fun _ _ => serveItem_mono known) _ _ safe
  · split at safe
    · dsimp only [memAllocMemByMsg] at safe
      split at safe
      · exact allocFrom_mono known ((memInitRspMsg_safe req cfg _ room _).mp safe).1
      · exact allocFrom_mono known safe
    · split at safe
      · exact foldl_mono Prod.snd (fun _ _ => serveItem_mono known) _ _ safe
      · exact safe

/-! ## The request -/

/-- The `switch` is inside exactly when the items it reaches fit, once the announced items do. -/
theorem serve_safe {req : Buf} {rspCap : Nat} (room : sizeofMsg ≤ rspCap) {cfg : ItemCfg}
    (known : cfg ∈ psMemMap)
    (announced : ∀ i < memCount req cfg, SeqFits req.cap rspCap cfg i) (s : Buf × World) :
    (serve req cfg s).2.Safe req.cap rspCap ↔
      s.2.Safe req.cap rspCap ∧ ServeFits req cfg s.2.store := by
  have acked (i : Nat) (less : i < memCount req cfg) : ackOff i + 11 ≤ rspCap :=
    (announced i less).2
  have only (P : Prop) (same : ServeFits req cfg s.2.store ↔ P) :
      (s.2.Safe req.cap rspCap ∧ ServeFits req cfg s.2.store ↔ s.2.Safe req.cap rspCap ∧ P) := by
    rw [same]
  unfold serve
  by_cases lookup : usmsgType req = memLookupReqMsg
  · rw [if_pos lookup, memLookupMemByMsg,
      foldl_safe Prod.snd _ (fun s i less => serveItem_safe known id s i (acked i less))]
    refine (only _ ⟨fun fits => fits.served (.inl lookup), fun all => ⟨fun _ => all, ?_⟩⟩).symm
    rw [lookup]
    exact fun creates => absurd creates (by decide)
  rw [if_neg lookup]
  by_cases creates : Creates (usmsgType req)
  · rw [if_pos creates]
    have started : (memAllocMemByMsg req cfg s).2.2.Safe req.cap rspCap ↔
        s.2.Safe req.cap rspCap ∧ CreationFits req cfg 0 (memCount req cfg) s.2.store :=
      allocFrom_safe known _ 0 (fun j less => acked j (by omega)) 0 s
    rw [only _ ⟨fun fits => fits.created creates,
      fun all => ⟨fun other => absurd creates (other.elim (absurd · lookup) ?_), fun _ => all⟩⟩,
      ← started]
    · dsimp only
      split
      · rw [memInitRspMsg_safe req cfg _ room]
        exact and_iff_left announced
      · rfl
    · intro release
      rw [release]
      decide
  rw [if_neg creates]
  by_cases release : usmsgType req = releaseReqMsg
  · rw [if_pos release, memRelMemByMsg,
      foldl_safe Prod.snd _ (fun s i less => serveItem_safe known (fun _ => 0) s i (acked i less))]
    exact (only _ ⟨fun fits => fits.served (.inr release),
      fun all => ⟨fun _ => all, fun made => absurd made creates⟩⟩).symm
  rw [if_neg release]
  exact (and_iff_left ⟨fun other => absurd other (not_or.mpr ⟨lookup, release⟩),
    fun made => absurd made creates⟩).symm

theorem memItemGetCfgFromMsg_mem {msgType : Nat} {cfg : ItemCfg}
    (found : cfg ∈ memItemGetCfgFromMsg msgType) : cfg ∈ psMemMap := by
  exact List.mem_of_find?_eq_some found

/-- **Serving a request stays inside its buffers exactly when the request meets the condition.**
Whatever the message holds, all that `mem_alloc_req_proc` reads of the request, writes to the
response and writes to its local buffers lies inside them if and only if the announced items and
their acknowledgements lie in the two messages, and the items that are reached have their fields
and their terminated names inside. -/
theorem request_in_bounds_iff (req rsp : Buf) (store : Store) :
    (memAllocReqProc req rsp ⟨store, []⟩).2.Safe req.cap rsp.cap ↔ Meets req rsp store := by
  have big : 504 ≤ req.cap := req.fits
  have start : (World.note ⟨store, []⟩ [.request 24 4]).Safe req.cap rsp.cap := by
    rw [World.safe_note]
    simp only [World.Safe, Access.Inside, List.mem_cons, List.not_mem_nil, or_false, forall_eq,
      false_implies, implies_true, true_and]
    omega
  unfold memAllocReqProc Meets
  cases found : memItemGetCfgFromMsg (usmsgType req) with
  | none => simpa using start
  | some cfg =>
    have known := memItemGetCfgFromMsg_mem found
    have read : ((World.note ⟨store, []⟩ [.request 24 4]).note [.request 28 4]).Safe
        req.cap rsp.cap := by
      rw [World.safe_note]
      refine ⟨start, ?_⟩
      simp only [Access.Inside, List.mem_cons, List.not_mem_nil, or_false, forall_eq]
      omega
    have initial := memInitRspMsg_safe req cfg rsp rsp.fits
      ((World.note ⟨store, []⟩ [.request 24 4]).note [.request 28 4])
    have kept := memInitRspMsg_store req cfg rsp
      ((World.note ⟨store, []⟩ [.request 24 4]).note [.request 28 4])
    have only : (∀ c ∈ some cfg, (∀ i < memCount req c, SeqFits req.cap rsp.cap c i) ∧
        ServeFits req c store) ↔
        (∀ i < memCount req cfg, SeqFits req.cap rsp.cap cfg i) ∧ ServeFits req cfg store := by
      simp
    rw [only]
    constructor
    · intro safe
      have announced := (initial.mp (serve_mono rsp.fits known safe)).2
      have served := ((serve_safe rsp.fits known announced _).mp safe).2
      rw [kept] at served
      exact ⟨announced, served⟩
    · intro fits
      apply (serve_safe rsp.fits known fits.1 _).mpr
      rw [kept]
      exact ⟨initial.mpr ⟨read, fits.1⟩, fits.2⟩

/-- A message of a type and a length whose items are all made of one byte. -/
def uniformRequest (msgType length : Nat) (byte : UInt8) : Buf :=
  { id := 0, origin := .pool, cap := sizeofMsg, fits := le_rfl,
    mem := put (put (fun _ => byte) 24 4 msgType) 28 4 length }

/-- Twelve lookups are announced where a message has room for eleven and a part: the sequence
number of the last one is read behind the request. And one lookup whose name has no terminator is
copied behind `argv_buf`. -/
theorem request_out_of_bounds :
    let long := uniformRequest memLookupReqMsg 480 0
    let unended := uniformRequest memLookupReqMsg 40 65
    let rsp := uniformRequest 0 0 0
    .request 504 2 ∈ (memAllocReqProc long rsp ⟨⟨[], []⟩, []⟩).2.log ∧
    ¬ (memAllocReqProc long rsp ⟨⟨[], []⟩, []⟩).2.Safe long.cap rsp.cap ∧
    .argv nameOff 473 ∈ (memAllocReqProc unended rsp ⟨⟨[], []⟩, []⟩).2.log ∧
    ¬ (memAllocReqProc unended rsp ⟨⟨[], []⟩, []⟩).2.Safe unended.cap rsp.cap := by
  decide +kernel

end Dmm.Ps.MemReq
