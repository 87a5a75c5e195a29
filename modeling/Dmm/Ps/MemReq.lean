import Dmm.Mgr.Message

/-!
# Requests for shared memory

`mem_alloc_req_proc` serves a `MGR_MSG_MEM_ALLOC_REQ` message in the main process. The body of
the message holds items of one kind, whose number is derived from a length the peer supplies.
For each item a zone, a pool or a ring is created, released or looked up by its name, and the
response carries one acknowledgement an item. If one of several creations fails, those before
it are released again, by name.

Messages and the argument buffer are bytes at their offsets, and the log collects every range
that is read in the request or written in the response and in the local buffers. `STRCPY_S` is
`strcpy` in the default build.
-/

namespace Dmm.Ps.MemReq

open Dmm.Bytes Dmm.Mgr

/-! ## The configuration of items -/

/-- `NSFW_MEM_MZONE` -/
def memMzone : Nat := 0

/-- `NSFW_MEM_MBUF` -/
def memMbuf : Nat := 1

/-- `NSFW_MEM_SPOOL` -/
def memSpool : Nat := 2

/-- `NSFW_MEM_RING` -/
def memRing : Nat := 3

/-- `NSFW_RESERV_REQ_MSG` -/
def reservReqMsg : Nat := 0

/-- `NSFW_MBUF_REQ_MSG` -/
def mbufReqMsg : Nat := 2

/-- `NSFW_SPPOOL_REQ_MSG` -/
def sppoolReqMsg : Nat := 4

/-- `NSFW_RING_REQ_MSG` -/
def ringReqMsg : Nat := 6

/-- `NSFW_RELEASE_REQ_MSG` -/
def releaseReqMsg : Nat := 8

/-- `NSFW_MEM_LOOKUP_REQ_MSG` -/
def memLookupReqMsg : Nat := 10

/-- `NSFW_MEM_ALLOC_SUCC` -/
def memAllocSucc : Nat := 1

/-- `NSFW_MEM_ALLOC_FAIL` -/
def memAllocFail : Nat := 2

/-- `NSFW_MEM_CALL_ARG_BUF` -/
def memCallArgBuf : Nat := 256

/-- `sizeof (nsfw_mem_type_info)` -/
def sizeofTypeInfo : Nat := 44

/-- Offset of `aname` in `nsfw_mem_name`, and of `stname` in every argument structure. -/
def nameOff : Nat := 8

/-- Offset of `aidata` in a message: the header and the head of the request. -/
def dataOff : Nat := 32

/-- `sizeof (nsfw_shmem_ack)` -/
def sizeofAck : Nat := 16

/-- The functions of `create_fun`. -/
inductive CreateFun
  | zone
  | mbfmp
  | sp
  | ring
  | free
  | lookup
  deriving DecidableEq, Repr

/-- One `MEM_GET_CALLARGV`: a field of the item copied to a field of the argument structure. -/
structure Field where
  dst : Nat
  dstWidth : Nat
  src : Nat
  srcWidth : Nat
  deriving DecidableEq, Repr

/-- `nsfw_ps_mem_item_cfg`, with the case of `mem_item_get_callargv` for its type. -/
structure ItemCfg where
  usmsgType : Nat
  itemSize : Nat
  memType : Nat
  createFun : CreateFun
  fields : List Field
  deriving DecidableEq, Repr

/-- `g_ps_mem_map` -/
def psMemMap : List ItemCfg :=
  [⟨reservReqMsg, 56, memMzone, .zone, [⟨40, 8, 40, 8⟩, ⟨48, 4, 36, 4⟩]⟩,
    ⟨mbufReqMsg, 60, memMbuf, .mbfmp, [⟨40, 4, 36, 4⟩, ⟨44, 4, 40, 4⟩, ⟨48, 4, 44, 4⟩,
      ⟨52, 4, 48, 4⟩, ⟨60, 4, 34, 2⟩, ⟨56, 4, 52, 4⟩]⟩,
    ⟨sppoolReqMsg, 52, memSpool, .sp, [⟨40, 4, 36, 4⟩, ⟨44, 4, 40, 4⟩, ⟨52, 4, 34, 2⟩,
      ⟨48, 4, 44, 4⟩]⟩,
    ⟨ringReqMsg, 48, memRing, .ring, [⟨40, 4, 36, 4⟩, ⟨48, 4, 34, 2⟩, ⟨44, 4, 40, 4⟩]⟩,
    ⟨releaseReqMsg, 40, 0xFFFF, .free, [⟨40, 2, 34, 2⟩]⟩,
    ⟨memLookupReqMsg, 40, 0xFFFF, .lookup, [⟨40, 2, 34, 2⟩]⟩]

/-- `mem_item_get_cfg_from_msg`, whose argument is a `u16`. -/
def memItemGetCfgFromMsg (msgType : Nat) : Option ItemCfg :=
  psMemMap.find? fun cfg => cfg.usmsgType = msgType % 2 ^ 16

/-! ## Named objects -/

/-- The two name spaces of the memory library: zones, rings and simple pools are memory zones. -/
inductive Space
  | memzone
  | mempool
  deriving DecidableEq, Repr

/-- A named shared-memory object. -/
structure Object where
  space : Space
  name : List UInt8
  addr : UInt64
  nonnull : addr ≠ 0
  deriving DecidableEq, Repr

/-- The objects, and what the library answers to the next reservations: an address, or null when
there is no memory. -/
structure Store where
  objects : List Object
  answers : List UInt64
  deriving DecidableEq, Repr

/-- The object of a name. -/
def Object.Is (space : Space) (name : List UInt8) (o : Object) : Prop :=
  o.space = space ∧ o.name = name

instance (space : Space) (name : List UInt8) : DecidablePred (Object.Is space name) :=
  fun _ => inferInstanceAs (Decidable (_ ∧ _))

/-- A lookup by name, null for none. -/
def Store.find (s : Store) (space : Space) (name : List UInt8) : UInt64 :=
  match s.objects.find? (Object.Is space name ·) with
  | some o => o.addr
  | none => 0

/-- A reservation: it fails for a name that is taken, and when there is no memory. -/
def Store.reserve (s : Store) (space : Space) (name : List UInt8) : UInt64 × Store :=
  let addr := s.answers.headD 0
  let answers := s.answers.tail
  if ∃ o ∈ s.objects, Object.Is space name o then (0, { s with answers })
  else if null : addr = 0 then (0, { s with answers })
  else (addr, ⟨s.objects ++ [⟨space, name, addr, null⟩], answers⟩)

/-- The object of a name is freed, if there is one. -/
def Store.release (s : Store) (space : Space) (name : List UInt8) : Store :=
  { s with objects := s.objects.filter (¬ Object.Is space name ·) }

/-- `nsfw_shmem_create`: `common_memzone_data_reserve_name` looks the name up if it cannot reserve
it. -/
def shmemCreate (name : List UInt8) (s : Store) : UInt64 × Store :=
  let (addr, s) := s.reserve .memzone name
  if addr = 0 then (s.find .memzone name, s) else (addr, s)

/-- `nsfw_shmem_mbfmpcreate` -/
def shmemMbfmpcreate (name : List UInt8) (s : Store) : UInt64 × Store := s.reserve .mempool name

/-- `nsfw_shmem_spcreate`: `nsfw_shmem_pool_create` returns a zone of the name if there is one. -/
def shmemSpcreate (name : List UInt8) (s : Store) : UInt64 × Store :=
  if s.find .memzone name ≠ 0 then (s.find .memzone name, s) else s.reserve .memzone name

/-- `nsfw_shmem_ringcreate` -/
def shmemRingcreate (name : List UInt8) (s : Store) : UInt64 × Store := s.reserve .memzone name

/-- `mem_item_free`: whether the type is known, and the objects left. A pool of mbufs is not
released, `nsfw_shmem_mbfmprelease` does nothing. -/
def memItemFree (ustype : Nat) (name : List UInt8) (s : Store) : Bool × Store :=
  if ustype = memMzone then (true, s.release .memzone name)
  else if ustype = memMbuf then (true, s)
  else if ustype = memSpool then (true, s.release .memzone name)
  else if ustype = memRing then (true, s.release .memzone name)
  else (false, s)

/-- `mem_item_lookup` -/
def memItemLookup (ustype : Nat) (name : List UInt8) (s : Store) : UInt64 :=
  if ustype = memMzone then s.find .memzone name
  else if ustype = memMbuf then s.find .mempool name
  else if ustype = memSpool then s.find .memzone name
  else if ustype = memRing then s.find .memzone name
  else 0

/-! ## Strings -/

/-- Number of bytes before the terminator, among so many bytes. -/
def strlen (m : Memory) (off : Nat) : Nat → Nat
  | 0 => 0
  | n + 1 => if m off = 0 then 0 else strlen m (off + 1) n + 1

/-- The bytes of a string. -/
def strBytes (m : Memory) (off len : Nat) : List UInt8 := (List.range' off len).map m

/-! ## Serving a request -/

/-- One access. -/
inductive Access
  | request (off len : Nat)
  | response (off len : Nat)
  | argv (off len : Nat)
  | memFree (off len : Nat)
  deriving DecidableEq, Repr

/-- The state of `mem_alloc_req_proc` outside its messages. -/
structure World where
  store : Store
  log : List Access

/-- The world with some more accesses. -/
def World.note (w : World) (accesses : List Access) : World :=
  { w with log := w.log ++ accesses }

/-- `usmsg_type` of a request. -/
def usmsgType (req : Buf) : Nat := load req.mem 24 4

/-- `uslength` of a request. -/
def uslength (req : Buf) : Nat := load req.mem 28 4

/-- Offset of an item in a request. -/
def itemOff (cfg : ItemCfg) (i : Nat) : Nat := dataOff + i * cfg.itemSize

/-- Offset of an acknowledgement in a response. -/
def ackOff (i : Nat) : Nat := dataOff + i * sizeofAck

/-- `mem_count` -/
def memCount (req : Buf) (cfg : ItemCfg) : Nat := uslength req / cfg.itemSize

/-- Number of bytes in the name of an item. A name that does not end within the request is read to
the end of the request and beyond. -/
def nameLen (req : Buf) (cfg : ItemCfg) (i : Nat) : Nat :=
  strlen req.mem (itemOff cfg i) (req.cap - itemOff cfg i)

/-- The name of an item. -/
def itemName (req : Buf) (cfg : ItemCfg) (i : Nat) : List UInt8 :=
  strBytes req.mem (itemOff cfg i) (nameLen req cfg i)

/-- One field of the item copied to the arguments. -/
def copyField (req : Buf) (pdata : Nat) (argv : Memory) (field : Field) : Memory :=
  put argv field.dst field.dstWidth (load req.mem (pdata + field.src) field.srcWidth)

/-- `mem_item_get_callargv`: the arguments, in `argv_buf`. The name is copied after the fields,
and then `entype`, which is zero. -/
def memItemGetCallargv (req : Buf) (cfg : ItemCfg) (i : Nat) : Memory :=
  let fields := cfg.fields.foldl (copyField req (itemOff cfg i)) fun _ => 0
  put (store fields nameOff (itemName req cfg i ++ [0])) 0 4 0

/-- What `mem_item_get_callargv` accesses. -/
def callargvAccesses (req : Buf) (cfg : ItemCfg) (i : Nat) : List Access :=
  cfg.fields.flatMap (fun field => [.request (itemOff cfg i + field.src) field.srcWidth,
      .argv field.dst field.dstWidth]) ++
    [.request (itemOff cfg i) (nameLen req cfg i + 1), .argv nameOff (nameLen req cfg i + 1),
      .argv 0 4]

/-- The name in the arguments. -/
def argvName (argv : Memory) : List UInt8 :=
  strBytes argv nameOff (strlen argv nameOff (memCallArgBuf - nameOff))

/-- `create_fun` on the arguments. `mem_item_free` returns its argument. -/
def createFun (fn : CreateFun) (argv : Memory) (s : Store) : UInt64 × Store :=
  match fn with
  | .zone => shmemCreate (argvName argv) s
  | .mbfmp => shmemMbfmpcreate (argvName argv) s
  | .sp => shmemSpcreate (argvName argv) s
  | .ring => shmemRingcreate (argvName argv) s
  | .free =>
    let (ok, s) := memItemFree (load argv 40 2) (argvName argv) s
    (if ok then 1 else 0, s)
  | .lookup => (memItemLookup (load argv 40 2) (argvName argv) s, s)

/-- What `mem_item_proc_by_msg` does to the objects. -/
def procItem (req : Buf) (cfg : ItemCfg) (i : Nat) (s : Store) : UInt64 × Store :=
  createFun cfg.createFun (memItemGetCallargv req cfg i) s

/-- `mem_item_proc_by_msg` -/
def memItemProcByMsg (req : Buf) (cfg : ItemCfg) (i : Nat) (w : World) : UInt64 × World :=
  let w := w.note (callargvAccesses req cfg i)
  let (addr, store) := procItem req cfg i w.store
  (addr, { w with store })

/-- One acknowledgement as `mem_init_rsp_msg` leaves it. -/
def initAck (req : Buf) (cfg : ItemCfg) (s : Buf × World) (i : Nat) : Buf × World :=
  let rsp := s.1.put (ackOff i) 8 0
  let rsp := rsp.put (ackOff i + 8) 2 (load req.mem (itemOff cfg i + 32) 2)
  (rsp.put (ackOff i + 10) 1 memAllocFail,
    s.2.note [.response (ackOff i) 8, .request (itemOff cfg i + 32) 2,
      .response (ackOff i + 8) 2, .response (ackOff i + 10) 1])

/-- `mem_init_rsp_msg`, for a type with a configuration. -/
def memInitRspMsg (req : Buf) (cfg : ItemCfg) (rsp : Buf) (w : World) : Buf × World :=
  let count := memCount req cfg
  let rsp := (rsp.put 24 4 (usmsgType req + 1)).put 28 4 (count * sizeofAck)
  let w := w.note [.response 24 4, .response 28 4]
  (List.range count).foldl (initAck req cfg) (rsp, w)

/-- An acknowledgement of success: `cstate` and `pbase_addr`. -/
def ackSucc (i : Nat) (addr : UInt64) (s : Buf × World) : Buf × World :=
  ((s.1.put (ackOff i + 10) 1 memAllocSucc).put (ackOff i) 8 addr.toNat,
    s.2.note [.response (ackOff i + 10) 1, .response (ackOff i) 8])

/-- One item of a request that does not stop at a failure, with the address that is acknowledged
for the one the item returns. -/
def serveItem (req : Buf) (cfg : ItemCfg) (base : UInt64 → UInt64) (s : Buf × World) (i : Nat) :
    Buf × World :=
  let (addr, w) := memItemProcByMsg req cfg i s.2
  if addr = 0 then (s.1, w) else ackSucc i (base addr) (s.1, w)

/-- `mem_rel_mem_by_msg` -/
def memRelMemByMsg (req : Buf) (cfg : ItemCfg) (s : Buf × World) : Buf × World :=
  (List.range (memCount req cfg)).foldl (serveItem req cfg fun _ => 0) s

/-- `mem_lookup_mem_by_msg` -/
def memLookupMemByMsg (req : Buf) (cfg : ItemCfg) (s : Buf × World) : Buf × World :=
  (List.range (memCount req cfg)).foldl (serveItem req cfg id) s

/-- The release of an item after a failure, through `mem_free`. -/
def freeItem (req : Buf) (cfg : ItemCfg) (w : World) (j : Nat) : World :=
  let w := w.note [.request (itemOff cfg j) (nameLen req cfg j + 1),
    .memFree nameOff (nameLen req cfg j + 1), .memFree 40 2, .memFree 0 4]
  { w with store := (memItemFree cfg.memType (itemName req cfg j) w.store).2 }

/-- The loops of `mem_alloc_mem_by_msg`, `n` items from the end: `p_addr`, null after a failure. -/
def allocFrom (req : Buf) (cfg : ItemCfg) : Nat → Nat → UInt64 → Buf × World → UInt64 × Buf × World
  | 0, _, addr, s => (addr, s)
  | n + 1, i, _, s =>
    let (addr, w) := memItemProcByMsg req cfg i s.2
    if addr = 0 then (0, s.1, (List.range i).foldl (freeItem req cfg) w)
    else allocFrom req cfg n (i + 1) addr (ackSucc i addr (s.1, w))

/-- `mem_alloc_mem_by_msg` -/
def memAllocMemByMsg (req : Buf) (cfg : ItemCfg) (s : Buf × World) : UInt64 × Buf × World :=
  allocFrom req cfg (memCount req cfg) 0 0 s

/-- The types of requests that create objects. -/
def Creates (msgType : Nat) : Prop :=
  msgType = reservReqMsg ∨ msgType = mbufReqMsg ∨ msgType = sppoolReqMsg ∨ msgType = ringReqMsg

instance : DecidablePred Creates := fun _ => inferInstanceAs (Decidable (_ ∨ _ ∨ _ ∨ _))

/-- The `switch` of `mem_alloc_req_proc`, on the type as it is in the message. -/
def serve (req : Buf) (cfg : ItemCfg) (s : Buf × World) : Buf × World :=
  if usmsgType req = memLookupReqMsg then memLookupMemByMsg req cfg s
  else if Creates (usmsgType req) then
    let (addr, s) := memAllocMemByMsg req cfg s
    if addr = 0 then memInitRspMsg req cfg s.1 s.2 else s
  else if usmsgType req = releaseReqMsg then memRelMemByMsg req cfg s
  else s

/-- `mem_alloc_req_proc` with the response message it has allocated: the response that is sent,
if one is. -/
def memAllocReqProc (req rsp : Buf) (w : World) : Option Buf × World :=
  let w := w.note [.request 24 4]
  match memItemGetCfgFromMsg (usmsgType req) with
  | none => (none, w)
  | some cfg =>
    let w := w.note [.request 28 4]
    let (rsp, w) := serve req cfg (memInitRspMsg req cfg rsp w)
    (some rsp, w)

end Dmm.Ps.MemReq
