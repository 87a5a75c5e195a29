import Dmm.Lib.Run

/-!
# The background scan for lost resources

`nsfw_res_mgr.c` with the pool of epoll items. Free items are kept in a FIFO ring. An item whose
owner has died without freeing it is found by a scan: the scan counts how often it has seen the
item since the last allocation or release, and when the ring has moved on far enough since the
first of these visits it takes the item to be lost, marks it as allocated and frees it. Nothing
but this distance keeps an item that is in the ring from being put there again.

Indices of the ring are 32-bit words and so are the products the scan compares; the ring itself is
a queue here, and each operation one step. `u8Reserve`, `prod_head` and `force_count`, which
nothing reads, are left out.
-/

namespace Dmm.ResMgr

/-! ## Items and the ring -/

/-- `nsfw_res` -/
structure Res where
  allocFlag : Bool
  chkCount : UInt16
  data : UInt32
  deriving DecidableEq, Repr

/-- `res_alloc` -/
def resAlloc (res : Res) : Res := { res with allocFlag := true, chkCount := 0 }

/-- `res_free`; `none` is the error. -/
def resFree (res : Res) : Option Res :=
  if res.allocFlag = true then some { res with chkCount := 0, allocFlag := false } else none

/-- An item of the pool. -/
structure Item where
  res : Res
  pid : UInt32
  deriving DecidableEq, Repr

/-- The ring of free items. -/
structure Ring (α : Type) where
  queue : List α
  prodHead : UInt32
  consTail : UInt32

/-- The pool. -/
structure Pool (α : Type) where
  item : α → Item
  ring : Ring α

variable {α : Type} [DecidableEq α]

/-- `nsfw_mem_ring_enqueue` -/
def Ring.enqueue (capacity : Nat) (x : α) (ring : Ring α) : Ring α :=
  if ring.queue.length < capacity then
    { ring with queue := ring.queue ++ [x], prodHead := ring.prodHead + 1 }
  else ring

/-- A store to an item. -/
def Pool.set (pool : Pool α) (x : α) (item : Item) : Pool α :=
  { pool with item := Function.update pool.item x item }

/-- `nsep_free_epitem` -/
def freeEpitem (capacity : Nat) (x : α) (pool : Pool α) : Pool α :=
  match resFree (pool.item x).res with
  | none => pool.set x { pool.item x with pid := 0 }
  | some res => { pool.set x ⟨res, 0⟩ with ring := pool.ring.enqueue capacity x }

/-- `nsep_alloc_epitem` by a process. -/
def allocEpitem (pid : UInt32) (pool : Pool α) : Pool α :=
  match pool.ring.queue with
  | [] => pool
  | x :: rest =>
    { pool.set x ⟨resAlloc (pool.item x).res, pid⟩ with
      ring := { pool.ring with queue := rest, consTail := pool.ring.consTail + 1 } }

/-- `nsep_force_epitem_free` -/
def forceEpitemFree (capacity : Nat) (x : α) (pool : Pool α) : Bool × Pool α :=
  if (pool.item x).pid ≠ 0 then (false, pool)
  else
    let item := pool.item x
    (true, freeEpitem capacity x (pool.set x { item with res := resAlloc item.res }))

/-! ## The scan -/

/-- `nsfw_res_scan_type`, with the size that the ring or the memory pool of that type has. -/
inductive ScanType
  | array
  | spool (size : UInt32)
  | mbuf (size : UInt32)
  deriving DecidableEq, Repr

/-- `nsfw_res_scn_cfg` -/
structure ScnCfg where
  type : ScanType
  /-- Nothing is freed while more than this part of the items is free. -/
  forceFreePercent : UInt8
  forceFreeChkNum : UInt16
  allocSpeedFactor : UInt16
  totalNum : UInt32
  deriving DecidableEq, Repr

/-- What `nsfw_res_flash_data` stores in `nsfw_res_mgr_item_cfg`. -/
structure Flash where
  consHead : UInt32
  freePercent : UInt32
  totalNum : UInt32

/-- `nsfw_get_alloc_count` -/
def getAllocCount (head tail : UInt32) : UInt32 :=
  if head ≥ tail then head - tail else head + (0xffffffff - tail)

/-- `elm_num` in `nsfw_res_flash_data`. -/
def ScnCfg.elmNum (cfg : ScnCfg) : UInt32 :=
  match cfg.type with
  | .array => cfg.totalNum
  | .spool size => size
  | .mbuf size => size

/-- `nsfw_res_flash_data` -/
def flashData (cfg : ScnCfg) (ring : Ring α) : Flash :=
  let freeCount := getAllocCount ring.prodHead ring.consTail
  { consHead := ring.prodHead
    freePercent := if cfg.elmNum ≠ 0 then freeCount * 100 / cfg.elmNum else 100
    totalNum := cfg.elmNum }

/-- The visit that `nsfw_res_sp_item_chk` notes in an item. -/
def visit (flash : Flash) (res : Res) : Res :=
  { res with
    data := if res.chkCount = 0 then flash.consHead else res.data
    chkCount := res.chkCount + 1 }

/-- Whether `nsfw_res_sp_item_chk` goes on to free an item it has visited. -/
def overdue (cfg : ScnCfg) (flash : Flash) (res : Res) : Bool :=
  ¬ res.chkCount < cfg.forceFreeChkNum ∧ ¬ flash.freePercent > cfg.forceFreePercent.toUInt32 ∧
    ¬ flash.totalNum * cfg.allocSpeedFactor.toUInt32 > getAllocCount flash.consHead res.data

/-- `nsfw_res_sp_item_chk` -/
def spItemChk (cfg : ScnCfg) (flash : Flash) (capacity : Nat) (x : α) (pool : Pool α) : Pool α :=
  let res := visit flash (pool.item x).res
  let pool := pool.set x { pool.item x with res := res }
  if overdue cfg flash res then
    let pool := (forceEpitemFree capacity x pool).2
    pool.set x { pool.item x with res := { (pool.item x).res with chkCount := 0 } }
  else pool

/-! ## Runs -/

/-- The steps of a run. -/
inductive Op (α : Type)
  | allocate (pid : UInt32)
  | free (x : α)
  | death (x : α)
  | scan (x : α)

/-- A step. -/
def step (cfg : ScnCfg) (capacity : Nat) (pool : Pool α) : Op α → Pool α
  | .allocate pid => allocEpitem pid pool
  | .free x => freeEpitem capacity x pool
  | .death x => pool.set x { pool.item x with pid := 0 }
  | .scan x => spItemChk cfg (flashData cfg pool.ring) capacity x pool

/-- A new pool: all items are in the ring. -/
def start (total : Nat) : Pool (Fin total) where
  item _ := ⟨⟨false, 0, 0⟩, 0⟩
  ring := ⟨List.finRange total, UInt32.ofNat total, 0⟩

/-- The pools of runs of any length. -/
def Reached (cfg : ScnCfg) (capacity : Nat) {total : Nat} : Pool (Fin total) → Prop :=
  Runs (fun pool op => some (step cfg capacity pool op)) (fun _ _ => True) (start total)

/-- No item is in the ring twice, and none that is in the ring has an owner. -/
def OnceFree (pool : Pool α) : Prop :=
  pool.ring.queue.Nodup ∧ ∀ x ∈ pool.ring.queue, (pool.item x).pid = 0

/-- The numbers of the configuration keep the scan away from the ring: with `occupied` items in a
ring that has room for another one, and counted as that or one less, the scan takes no item for
lost whose record is less than `occupied` behind the producer index. Both products wrap. -/
def Spaced (cfg : ScnCfg) (total capacity : Nat) : Prop :=
  ∀ occupied counted, occupied ≤ total → occupied < capacity →
    (counted = occupied ∨ counted + 1 = occupied) →
    16 * cfg.elmNum.toNat % 2 ^ 32 < occupied →
    cfg.forceFreePercent.toNat <
      if cfg.elmNum = 0 then 100 else 100 * counted % 2 ^ 32 / cfg.elmNum.toNat

/-- What a visit of the scan does: it notes the visit; it starts over when an item is due but has
an owner; and it puts an item that is due and has none into the ring. -/
theorem spItemChk_cases (cfg : ScnCfg) (flash : Flash) (capacity : Nat) (x : α) (pool : Pool α) :
    let res := visit flash (pool.item x).res
    let result := spItemChk cfg flash capacity x pool
    overdue cfg flash res = false ∧ result = pool.set x { pool.item x with res := res } ∨
      overdue cfg flash res = true ∧ (pool.item x).pid ≠ 0 ∧
        result = pool.set x { pool.item x with res := { res with chkCount := 0 } } ∨
      overdue cfg flash res = true ∧ (pool.item x).pid = 0 ∧
        result = { pool.set x ⟨⟨false, 0, res.data⟩, 0⟩ with
          ring := pool.ring.enqueue capacity x } := by
  dsimp only
  unfold spItemChk
  cases due : overdue cfg flash (visit flash (pool.item x).res) with
  | false => exact .inl ⟨rfl, by simp [due]⟩
  | true =>
    by_cases owned : (pool.item x).pid = 0
    · refine .inr (.inr ⟨rfl, owned, ?_⟩)
      simp [due, forceEpitemFree, freeEpitem, resAlloc, resFree, Pool.set, owned]
    · refine .inr (.inl ⟨rfl, owned, ?_⟩)
      simp [due, forceEpitemFree, Pool.set, owned]

/-! ## Distances -/

/-- The count of `nsfw_get_alloc_count` is the distance, or one less where the index has wrapped
in between. -/
theorem getAllocCount_sub (head : UInt32) {d : Nat} (small : d < 2 ^ 32) :
    (getAllocCount head (head - UInt32.ofNat d)).toNat = d ∨
      (getAllocCount head (head - UInt32.ofNat d)).toNat + 1 = d := by
  have word : (UInt32.ofNat d).toNat = d := UInt32.toNat_ofNat_of_lt' small
  have bound := head.toNat_lt
  have tail : (head - UInt32.ofNat d).toNat = (2 ^ 32 - d + head.toNat) % 2 ^ 32 := by
    rw [UInt32.toNat_sub, word]
  unfold getAllocCount
  by_cases ahead : head ≥ head - UInt32.ofNat d
  · grind [UInt32.toNat_sub_of_le]
  · rw [if_neg ahead]
    rw [ge_iff_le, UInt32.le_iff_toNat_le, tail] at ahead
    have rest : (0xffffffff - (head - UInt32.ofNat d)).toNat =
        2 ^ 32 - 1 - (2 ^ 32 - d + head.toNat) % 2 ^ 32 := by grind [UInt32.toNat_sub_of_le]
    rw [UInt32.toNat_add, rest]
    omega

theorem toNat_product (elm : UInt32) {factor : UInt16} (sixteen : factor = 16) :
    (elm * factor.toUInt32).toNat = 16 * elm.toNat % 2 ^ 32 := by
  subst sixteen
  rw [UInt32.toNat_mul, Nat.mul_comm]
  rfl

omit [DecidableEq α] in
/-- The part of the items that is free, as the scan computes it. -/
theorem toNat_freePercent (cfg : ScnCfg) (ring : Ring α) :
    (flashData cfg ring).freePercent.toNat = if cfg.elmNum = 0 then 100 else
      100 * (getAllocCount ring.prodHead ring.consTail).toNat % 2 ^ 32 / cfg.elmNum.toNat := by
  dsimp only [flashData]
  by_cases none : cfg.elmNum = 0
  · rw [if_neg (not_not.mpr none), if_pos none]
    rfl
  · rw [if_pos none, if_neg none, UInt32.toNat_div, UInt32.toNat_mul, Nat.mul_comm]
    rfl

theorem further (head : UInt32) (d : Nat) :
    head + 1 - UInt32.ofNat (d + 1) = head - UInt32.ofNat d := by
  rw [UInt32.ofNat_add]
  grind

/-! ## What a run keeps -/

/-- The invariant of a pool whose configuration is `Spaced`. -/
structure Sound (pool : Pool α) : Prop where
  cons : pool.ring.consTail = pool.ring.prodHead - UInt32.ofNat pool.ring.queue.length
  nodup : pool.ring.queue.Nodup
  freed : ∀ x ∈ pool.ring.queue, (pool.item x).res.allocFlag = false
  idle : ∀ x ∈ pool.ring.queue, (pool.item x).pid = 0
  seen : ∀ older x younger, pool.ring.queue = older ++ x :: younger →
    (pool.item x).res.chkCount ≠ 0 →
    ∃ d ≤ younger.length, (pool.item x).res.data = pool.ring.prodHead - UInt32.ofNat d

namespace Sound

variable {pool : Pool α} {x : α} {item : Item}

/-- A store to an item, which is one of a free item if the item is in the ring. -/
theorem set (sound : Sound pool) (free : x ∈ pool.ring.queue → item.res.allocFlag = false ∧
      item.pid = 0 ∧ (item.res.chkCount ≠ 0 → item.res.data = pool.ring.prodHead ∨
        (pool.item x).res.chkCount ≠ 0 ∧ item.res.data = (pool.item x).res.data)) :
    Sound (pool.set x item) := by
  refine ⟨sound.cons, sound.nodup, fun y member => ?_, fun y member => ?_, ?_⟩
  · by_cases here : y = x
    · subst here
      simpa [Pool.set] using (free member).1
    · simpa [Pool.set, here] using sound.freed y member
  · by_cases here : y = x
    · subst here
      simpa [Pool.set] using (free member).2.1
    · simpa [Pool.set, here] using sound.idle y member
  · intro older y younger split visited
    by_cases here : y = x
    · subst here
      have member : y ∈ pool.ring.queue := split ▸ List.mem_append_right _ List.mem_cons_self
      simp only [Pool.set, Function.update_self] at visited ⊢
      rcases (free member).2.2 visited with now | ⟨before, same⟩
      · exact ⟨0, Nat.zero_le _, by simp [now]⟩
      · rw [same]
        exact sound.seen older y younger split before
    · simp only [Pool.set, Function.update_of_ne here] at visited ⊢
      exact sound.seen older y younger split visited

/-- An item that is not in the ring is put there. -/
theorem enqueue {capacity : Nat} (sound : Sound pool) (outside : x ∉ pool.ring.queue)
    (room : pool.ring.queue.length < capacity) (freed : item.res.allocFlag = false)
    (idle : item.pid = 0) (fresh : item.res.chkCount = 0) :
    Sound { pool.set x item with ring := pool.ring.enqueue capacity x } := by
  have stored : Sound (pool.set x item) := sound.set fun member => absurd member outside
  have here : (pool.set x item).item x = item := Function.update_self _ _ _
  rw [Ring.enqueue, if_pos room]
  refine ⟨?_, ?_, fun y member => ?_, fun y member => ?_, ?_⟩
  · dsimp only
    rw [List.length_append, List.length_singleton, sound.cons, further]
  · grind [sound.nodup, List.nodup_singleton]
  · rcases List.mem_append.mp member with inside | last
    · exact stored.freed y inside
    · rw [List.mem_singleton.mp last, here]
      exact freed
  · rcases List.mem_append.mp member with inside | last
    · exact stored.idle y inside
    · rw [List.mem_singleton.mp last, here]
      exact idle
  · intro older y younger split visited
    have parts : pool.ring.queue ++ [x] = older ++ y :: younger := split
    rcases List.eq_nil_or_concat' younger with rfl | ⟨between, z, rfl⟩
    · grind [List.append_inj']
    · rw [← List.cons_append, ← List.append_assoc] at parts
      obtain ⟨shape, -⟩ := List.append_inj' parts rfl
      obtain ⟨d, near, record⟩ := stored.seen older y between shape visited
      exact ⟨d + 1, by simpa using near, record.trans (further _ d).symm⟩

theorem dequeue {rest : List α} (sound : Sound pool) (queue : pool.ring.queue = x :: rest) :
    Sound { pool.set x item with
      ring := { pool.ring with queue := rest, consTail := pool.ring.consTail + 1 } } := by
  have nodup := sound.nodup
  simp only [Pool.set]
  constructor <;> grind [UInt32.ofNat_add, Sound]

theorem free {capacity : Nat} (sound : Sound pool)
    (room : x ∉ pool.ring.queue → pool.ring.queue.length < capacity) :
    Sound (freeEpitem capacity x pool) := by
  grind [freeEpitem, resFree, sound.set, sound.freed, sound.enqueue]

theorem visited (sound : Sound pool) (cfg : ScnCfg) :
    Sound (pool.set x { pool.item x with
      res := visit (flashData cfg pool.ring) (pool.item x).res }) := by
  grind [sound.set, sound.freed, sound.idle, visit, flashData]

omit [DecidableEq α] in
/-- With the configuration `Spaced`, no item in a ring that has room is due. -/
theorem not_overdue {cfg : ScnCfg} {total capacity : Nat} (sound : Sound pool)
    (spaced : Spaced cfg total capacity) (sixteen : cfg.allocSpeedFactor = 16)
    (word : capacity < 2 ^ 32) (member : x ∈ pool.ring.queue)
    (few : pool.ring.queue.length ≤ total) (room : pool.ring.queue.length < capacity) :
    overdue cfg (flashData cfg pool.ring) (visit (flashData cfg pool.ring) (pool.item x).res) =
      false := by
  obtain ⟨older, younger, split⟩ := List.append_of_mem member
  have length : pool.ring.queue.length = older.length + (younger.length + 1) := by simp [split]
  obtain ⟨d, near, record⟩ : ∃ d ≤ younger.length,
      (visit (flashData cfg pool.ring) (pool.item x).res).data =
        pool.ring.prodHead - UInt32.ofNat d := by
    by_cases first : (pool.item x).res.chkCount = 0
    · exact ⟨0, Nat.zero_le _, by simp [visit, first, flashData]⟩
    · obtain ⟨d, near, record⟩ := sound.seen older x younger split first
      exact ⟨d, near, by simp [visit, first, record]⟩
  by_contra due
  obtain ⟨-, scarce, far⟩ : _ ∧ _ ∧ _ := of_decide_eq_true (Bool.eq_true_of_not_eq_false due)
  rw [UInt32.not_lt, UInt32.le_iff_toNat_le] at scarce far
  rw [toNat_freePercent, sound.cons] at scarce
  have distance := getAllocCount_sub pool.ring.prodHead (by omega : d < 2 ^ 32)
  have counted := getAllocCount_sub pool.ring.prodHead
    (by omega : pool.ring.queue.length < 2 ^ 32)
  have behind : 16 * cfg.elmNum.toNat % 2 ^ 32 < pool.ring.queue.length := by
    have product := toNat_product cfg.elmNum sixteen
    rw [record] at far
    have farther : (cfg.elmNum * cfg.allocSpeedFactor.toUInt32).toNat ≤
        (getAllocCount pool.ring.prodHead (pool.ring.prodHead - UInt32.ofNat d)).toNat := far
    omega
  have limit := spaced _ _ few room counted behind
  have percent : cfg.forceFreePercent.toUInt32.toNat = cfg.forceFreePercent.toNat := by simp
  omega

/-- A step keeps the invariant. -/
theorem step {cfg : ScnCfg} {total capacity : Nat} {pool : Pool (Fin total)} (sound : Sound pool)
    (spaced : Spaced cfg total capacity) (sixteen : cfg.allocSpeedFactor = 16)
    (enough : total ≤ capacity) (word : capacity < 2 ^ 32) (op : Op (Fin total)) :
    Sound (step cfg capacity pool op) := by
  have few : pool.ring.queue.length ≤ total := by
    simpa using sound.nodup.length_le_card
  have room (x : Fin total) (outside : x ∉ pool.ring.queue) :
      pool.ring.queue.length < capacity := by
    have longer := (List.nodup_cons.mpr ⟨outside, sound.nodup⟩).length_le_card
    rw [Fintype.card_fin, List.length_cons] at longer
    omega
  cases op with
  | allocate pid => grind [ResMgr.step, allocEpitem, sound.dequeue]
  | free x => exact sound.free (room x)
  | death x =>
    exact sound.set fun member => ⟨sound.freed x member, rfl, fun visited => .inr ⟨visited, rfl⟩⟩
  | scan x =>
    rcases spItemChk_cases cfg (flashData cfg pool.ring) capacity x pool with
      ⟨-, same⟩ | ⟨-, -, same⟩ | ⟨due, -, same⟩
    · rw [ResMgr.step, same]
      exact sound.visited cfg
    · rw [ResMgr.step, same]
      exact sound.set fun member =>
        ⟨sound.freed x member, sound.idle x member, fun visited => absurd rfl visited⟩
    · rw [ResMgr.step, same]
      by_cases member : x ∈ pool.ring.queue
      · -- the ring must be full, so nothing is put into it
        have full : ¬ pool.ring.queue.length < capacity := by grind [sound.not_overdue]
        rw [Ring.enqueue, if_neg full]
        exact sound.set fun _ => ⟨rfl, rfl, fun visited => absurd rfl visited⟩
      · exact sound.enqueue member (room x member) rfl rfl rfl

end Sound

theorem sound_start (total : Nat) : Sound (start total) where
  cons := by simp [start]
  nodup := List.nodup_finRange total
  freed _ _ := rfl
  idle _ _ := rfl
  seen _ _ _ _ visited := absurd rfl visited

/-- With a configuration that is `Spaced`, no item is in the ring twice. -/
theorem onceFree_of_spaced {cfg : ScnCfg} {total capacity : Nat} {pool : Pool (Fin total)}
    (spaced : Spaced cfg total capacity) (sixteen : cfg.allocSpeedFactor = 16)
    (enough : total ≤ capacity) (word : capacity < 2 ^ 32) (reached : Reached cfg capacity pool) :
    OnceFree pool := by
  have sound : Sound pool := by
    refine Runs.invariant (sound_start total) (fun before op after holds _ taken => ?_) reached
    obtain rfl := Option.some.inj taken
    exact holds.step spaced sixteen enough word op
  exact ⟨sound.nodup, sound.idle⟩

/-! ## An item that is freed twice -/

section Twice

variable {cfg : ScnCfg} {total capacity : Nat} {pool : Pool (Fin total)} {r : UInt32}

theorem Reached.step (reached : Reached cfg capacity pool) (op : Op (Fin total)) :
    Reached cfg capacity (step cfg capacity pool op) :=
  Runs.step op reached trivial rfl

/-- All items are out, and the ring stands at this index. -/
structure AllOut (r : UInt32) (pool : Pool (Fin total)) : Prop where
  empty : pool.ring.queue = []
  prod : pool.ring.prodHead = r
  cons : pool.ring.consTail = r
  out : ∀ x, (pool.item x).res.allocFlag = true

theorem exists_drained (reached : Reached cfg capacity pool) (queue : List (Fin total))
    (shape : pool.ring.queue = queue)
    (cons : pool.ring.consTail = pool.ring.prodHead - UInt32.ofNat queue.length)
    (out : ∀ x ∉ queue, (pool.item x).res.allocFlag = true) :
    ∃ pool' : Pool (Fin total), Reached cfg capacity pool' ∧ AllOut pool.ring.prodHead pool' := by
  induction queue generalizing pool with
  | nil =>
    refine ⟨pool, reached, shape, rfl, ?_, fun x => out x List.not_mem_nil⟩
    simpa using cons
  | cons x rest ih =>
    have next : step cfg capacity pool (.allocate 1) =
        { pool.set x ⟨resAlloc (pool.item x).res, 1⟩ with
          ring := { pool.ring with queue := rest, consTail := pool.ring.consTail + 1 } } := by
      simp only [step, allocEpitem, shape]
    have reached' := reached.step (.allocate 1)
    rw [next] at reached'
    have drained := ih reached' rfl ?_ fun y outside => ?_
    · exact drained
    · dsimp only
      rw [cons, List.length_cons, UInt32.ofNat_add]
      grind
    · simp only [Pool.set, resAlloc]
      grind

/-- Freeing an item and taking it again moves the ring on by one. -/
theorem AllOut.turn (out : AllOut r pool) (reached : Reached cfg capacity pool) (x : Fin total)
    (room : 0 < capacity) :
    ∃ pool' : Pool (Fin total), Reached cfg capacity pool' ∧ AllOut (r + 1) pool' := by
  have freed : step cfg capacity pool (.free x) =
      { pool.set x ⟨⟨false, 0, (pool.item x).res.data⟩, 0⟩ with ring := ⟨[x], r + 1, r⟩ } := by
    simp [step, freeEpitem, resFree, out.out x, Ring.enqueue, out.empty, room, out.prod, out.cons]
  have reached' := reached.step (.free x)
  rw [freed] at reached'
  have drained := exists_drained reached' [x] rfl (by simp) fun y outside => ?_
  · exact drained
  · have away : y ≠ x := by simpa using outside
    simpa [Pool.set, away] using out.out y

/-- The ring can stand at any index with all items out. -/
theorem exists_allOut (x : Fin total) (room : 0 < capacity) (r : UInt32) :
    ∃ pool : Pool (Fin total), Reached cfg capacity pool ∧ AllOut r pool := by
  have turned (n : Nat) : ∃ pool : Pool (Fin total), Reached cfg capacity pool ∧
      AllOut (UInt32.ofNat total + UInt32.ofNat n) pool := by
    induction n with
    | zero =>
      have begun : Reached cfg capacity (start total) := .start
      obtain ⟨pool, reached, out⟩ := exists_drained begun _ rfl (by simp [start]) (by simp [start])
      exact ⟨pool, reached, by simpa [start] using out⟩
    | succ n ih =>
      obtain ⟨pool, reached, out⟩ := ih
      have next := out.turn reached x room
      rwa [UInt32.ofNat_add, ← UInt32.add_assoc]
  have target : UInt32.ofNat total + UInt32.ofNat (r - UInt32.ofNat total).toNat = r := by
    rw [UInt32.ofNat_toNat]
    grind
  exact target ▸ turned (r - UInt32.ofNat total).toNat

/-- The first `k` items are back in the ring. The scan has visited the first of them `c` times,
and first when it was alone there. -/
structure Filled (r : UInt32) (k : Nat) (c : UInt16) (z : Fin total) (pool : Pool (Fin total)) :
    Prop where
  queue : pool.ring.queue = (List.finRange total).take k
  prod : pool.ring.prodHead = r + UInt32.ofNat k
  cons : pool.ring.consTail = r
  first : pool.item z = ⟨⟨false, c, r + 1⟩, 0⟩
  out : ∀ x : Fin total, k ≤ x.val → (pool.item x).res.allocFlag = true

/-- One item more is freed. -/
theorem Filled.fill {k : Nat} {c : UInt16} {z : Fin total} (filled : Filled r k c z pool)
    (inside : k < total) (room : k < capacity) (other : z.val < k) :
    Filled r (k + 1) c z (step cfg capacity pool (.free ⟨k, inside⟩)) := by
  have length : pool.ring.queue.length = k := by simp [filled.queue]; omega
  have away : z ≠ ⟨k, inside⟩ := by
    rintro rfl
    exact lt_irrefl _ other
  have freed : step cfg capacity pool (.free ⟨k, inside⟩) =
      { pool.set ⟨k, inside⟩ ⟨⟨false, 0, (pool.item ⟨k, inside⟩).res.data⟩, 0⟩ with
        ring :=
          ⟨pool.ring.queue ++ [⟨k, inside⟩], pool.ring.prodHead + 1, pool.ring.consTail⟩ } := by
    simp [step, freeEpitem, resFree, filled.out ⟨k, inside⟩ (le_refl k), Ring.enqueue, length, room]
  rw [freed]
  refine ⟨?_, ?_, filled.cons, ?_, fun x beyond => ?_⟩
  · dsimp only
    rw [filled.queue, List.take_add_one]
    simp [inside]
  · dsimp only
    rw [filled.prod, UInt32.ofNat_add]
    grind
  · simpa [Pool.set, away] using filled.first
  · have different : x ≠ ⟨k, inside⟩ := by
      rintro rfl
      exact absurd beyond (by simp)
    simpa [Pool.set, different] using filled.out x (by omega)

theorem scan_twice {z : Fin total} (member : z ∈ pool.ring.queue) (idle : (pool.item z).pid = 0)
    (room : pool.ring.queue.length < capacity)
    (due : overdue cfg (flashData cfg pool.ring)
      (visit (flashData cfg pool.ring) (pool.item z).res) = true) :
    ¬ (step cfg capacity pool (.scan z)).ring.queue.Nodup := by
  grind [step, spItemChk_cases, Ring.enqueue]

theorem scan_visits {z : Fin total}
    (early : overdue cfg (flashData cfg pool.ring)
      (visit (flashData cfg pool.ring) (pool.item z).res) = false) :
    step cfg capacity pool (.scan z) =
      pool.set z { pool.item z with
        res := visit (flashData cfg pool.ring) (pool.item z).res } := by
  rcases spItemChk_cases cfg (flashData cfg pool.ring) capacity z pool with
    ⟨-, same⟩ | ⟨due, -⟩ | ⟨due, -⟩
  · exact same
  · rw [early] at due
    cases due
  · rw [early] at due
    cases due

theorem take_one_finRange (z : Fin total) (zero : z.val = 0) :
    (List.finRange total).take 1 = [z] := by
  obtain ⟨n, rfl⟩ : ∃ n, total = n + 1 := ⟨total - 1, by omega⟩
  obtain rfl : z = 0 := Fin.ext zero
  rw [List.finRange_succ]
  rfl

/-- The first visit, after the first item has come back. -/
theorem AllOut.visit_first (out : AllOut r pool) (reached : Reached cfg capacity pool)
    (z : Fin total) (zero : z.val = 0) (room : 1 < capacity) :
    ∃ pool' : Pool (Fin total), Reached cfg capacity pool' ∧
      (¬ pool'.ring.queue.Nodup ∨ Filled r 1 1 z pool') := by
  have freed : step cfg capacity pool (.free z) =
      { pool.set z ⟨⟨false, 0, (pool.item z).res.data⟩, 0⟩ with ring := ⟨[z], r + 1, r⟩ } := by
    simp [step, freeEpitem, resFree, out.out z, Ring.enqueue, out.empty, out.prod, out.cons,
      Nat.lt_of_succ_lt room]
  have reached' := reached.step (.free z)
  rw [freed] at reached'
  set after : Pool (Fin total) :=
    { pool.set z ⟨⟨false, 0, (pool.item z).res.data⟩, 0⟩ with ring := ⟨[z], r + 1, r⟩ } with isAfter
  have here : after.item z = ⟨⟨false, 0, (pool.item z).res.data⟩, 0⟩ := by simp [after, Pool.set]
  refine ⟨_, reached'.step (.scan z), ?_⟩
  cases due : overdue cfg (flashData cfg after.ring)
      (visit (flashData cfg after.ring) (after.item z).res) with
  | true => exact .inl (scan_twice (by simp [after]) (by rw [here]) room due)
  | false =>
    refine .inr ?_
    rw [scan_visits due]
    refine ⟨(take_one_finRange z zero).symm, ?_, rfl, ?_, fun x beyond => ?_⟩
    · simp [after, Pool.set]
    · simp [Pool.set, visit, flashData, after]
    · have away : x ≠ z := by
        rintro rfl
        omega
      simpa [after, Pool.set, away] using out.out x

theorem Filled.visited {k : Nat} {c : UInt16} {z : Fin total} (filled : Filled r k c z pool)
    (below : z.val < k) (d : UInt16) :
    Filled r k d z (pool.set z ⟨⟨false, d, r + 1⟩, 0⟩) := by
  simp only [Pool.set]
  constructor <;> grind [Filled]

/-- The visits that follow: the first item is due in the end. -/
theorem Filled.exists_twice {k : Nat} {c : UInt16} {z : Fin total} (filled : Filled r k c z pool)
    (reached : Reached cfg capacity pool) (zero : z.val = 0) (some : 0 < k)
    (inside : k ≤ total) (room : k < capacity) (visited : c ≠ 0) (low : c.toNat < 2 ^ 16 - 1)
    (scarce : ¬ (flashData cfg pool.ring).freePercent > cfg.forceFreePercent.toUInt32)
    (far : ¬ cfg.elmNum * cfg.allocSpeedFactor.toUInt32 >
      getAllocCount (r + UInt32.ofNat k) (r + 1)) :
    ∃ pool' : Pool (Fin total), Reached cfg capacity pool' ∧ ¬ pool'.ring.queue.Nodup := by
  induction left : cfg.forceFreeChkNum.toNat - c.toNat using Nat.strong_induction_on
    generalizing pool c with
  | _ n ih =>
    have length : pool.ring.queue.length = k := by
      rw [filled.queue, List.length_take, List.length_finRange]
      omega
    have noted : visit (flashData cfg pool.ring) (pool.item z).res = ⟨false, c + 1, r + 1⟩ := by
      simp [filled.first, visit, visited]
    have head : (flashData cfg pool.ring).consHead = r + UInt32.ofNat k := filled.prod
    have due : overdue cfg (flashData cfg pool.ring) ⟨false, c + 1, r + 1⟩ =
        decide (¬ c + 1 < cfg.forceFreeChkNum) := by grind [flashData, overdue]
    have higher : (c + 1).toNat = c.toNat + 1 := by grind [UInt16.toNat_add]
    by_cases again : c + 1 < cfg.forceFreeChkNum
    · have early : overdue cfg (flashData cfg pool.ring)
          (visit (flashData cfg pool.ring) (pool.item z).res) = false := by
        rw [noted, due]
        simpa using again
      have next := reached.step (.scan z)
      rw [scan_visits early, noted, filled.first] at next
      have few := UInt16.lt_iff_toNat_lt.mp again
      have limit := cfg.forceFreeChkNum.toNat_lt
      have visited' : c + 1 ≠ 0 := by
        intro wrapped
        rw [wrapped] at higher
        exact absurd higher (by simp)
      exact ih (cfg.forceFreeChkNum.toNat - (c + 1).toNat) (by omega)
        (filled.visited (by omega) (c + 1)) next visited' (by omega) scarce rfl
    · refine ⟨_, reached.step (.scan z), scan_twice ?_ (by rw [filled.first]) (by omega) ?_⟩
      · rw [filled.queue]
        have first : z ∈ (List.finRange total).take 1 := by simp [take_one_finRange z zero]
        exact List.take_subset_take_left _ some first
      · rw [noted, due]
        simpa using again

theorem Filled.exists_filled {k : Nat} {z : Fin total} (filled : Filled r 1 1 z pool)
    (reached : Reached cfg capacity pool) (zero : z.val = 0) (some : 1 ≤ k) (inside : k ≤ total)
    (room : k < capacity) :
    ∃ pool' : Pool (Fin total), Reached cfg capacity pool' ∧ Filled r k 1 z pool' := by
  induction k, some using Nat.le_induction with
  | base => exact ⟨pool, reached, filled⟩
  | succ k some ih =>
    obtain ⟨pool', reached', filled'⟩ := ih (by omega) (by omega)
    exact ⟨_, reached'.step (.free ⟨k, inside⟩), filled'.fill inside (by omega) (by omega)⟩

/-- Indices between which the scan counts as it is told to. -/
theorem exists_index {occupied counted : Nat} (some : 0 < occupied) (word : occupied < 2 ^ 32)
    (count : counted = occupied ∨ counted + 1 = occupied) :
    ∃ r : UInt32, (getAllocCount (r + UInt32.ofNat occupied) r).toNat = counted ∧
      (getAllocCount (r + UInt32.ofNat occupied) (r + 1)).toNat + 1 = occupied := by
  have whole : (UInt32.ofNat occupied).toNat = occupied := UInt32.toNat_ofNat_of_lt' word
  rcases count with rfl | short
  · refine ⟨0, ?_, ?_⟩
    · simp [getAllocCount, whole]
    · grind [UInt32.le_iff_toNat_le, getAllocCount, UInt32.toNat_sub_of_le]
  · have head : (0xffffffff + UInt32.ofNat occupied).toNat = counted := by grind [UInt32.toNat_add]
    refine ⟨0xffffffff, ?_, ?_⟩
    · grind [UInt32.le_iff_toNat_le, getAllocCount, UInt32.add_zero]
    · grind [getAllocCount, UInt32.sub_zero]

/-- Where the configuration is not `Spaced`, an item can come to be in the ring twice. -/
theorem exists_twice (tight : ¬ Spaced cfg total capacity) (sixteen : cfg.allocSpeedFactor = 16)
    (word : capacity < 2 ^ 32) :
    ∃ pool : Pool (Fin total), Reached cfg capacity pool ∧ ¬ pool.ring.queue.Nodup := by
  unfold Spaced at tight
  push Not at tight
  obtain ⟨occupied, counted, inside, room, count, behind, limit⟩ := tight
  obtain ⟨r, part, distance⟩ := exists_index (by omega) (by omega) count
  have zero : (⟨0, by omega⟩ : Fin total).val = 0 := rfl
  have start : ∃ pool : Pool (Fin total), Reached cfg capacity pool ∧ AllOut r pool :=
    exists_allOut ⟨0, by omega⟩ (by omega) r
  obtain ⟨pool, reached, out⟩ := start
  obtain ⟨pool, reached, twice | filled⟩ := out.visit_first reached _ zero (by omega)
  · exact ⟨pool, reached, twice⟩
  · obtain ⟨pool, reached, filled⟩ :=
      filled.exists_filled reached zero (by omega : 1 ≤ occupied) inside room
    refine filled.exists_twice reached zero (by omega) inside room (by decide) (by decide) ?_ ?_
    · rw [gt_iff_lt, UInt32.not_lt, UInt32.le_iff_toNat_le, toNat_freePercent, filled.prod,
        filled.cons, part]
      simpa using limit
    · rw [gt_iff_lt, UInt32.not_lt, UInt32.le_iff_toNat_le, toNat_product _ sixteen]
      omega

end Twice

/-- Over all runs, of any length and for every number of visits and every percentage: no item is
ever in the ring twice, nor with an owner, exactly when the configuration is `Spaced`. -/
theorem scan_frees_once_iff (cfg : ScnCfg) (sixteen : cfg.allocSpeedFactor = 16)
    (total capacity : Nat) (enough : total ≤ capacity) (word : capacity < 2 ^ 32) :
    (∀ pool : Pool (Fin total), Reached cfg capacity pool → OnceFree pool) ↔
      Spaced cfg total capacity := by
  constructor
  · intro safe
    by_contra tight
    obtain ⟨pool, reached, twice⟩ := exists_twice tight sixteen word
    exact twice (safe pool reached).1
  · intro spaced pool reached
    exact onceFree_of_spaced spaced sixteen enough word reached

theorem spaced_of_small (cfg : ScnCfg) (capacity : Nat) (array : cfg.type = .array)
    (small : cfg.totalNum.toNat < 2 ^ 28) : Spaced cfg cfg.totalNum.toNat capacity := by
  intro occupied counted inside _ _ behind
  grind [ScnCfg.elmNum]

/-- The pool of epoll items as it is registered: 16384 items, in a ring for 32767. -/
theorem scan_frees_epitem_once :
    Spaced ⟨.array, 90, 3, 16, 16384⟩ 16384 32767 ∧
      ∀ pool : Pool (Fin 16384),
        Reached ⟨.array, 90, 3, 16, 16384⟩ 32767 pool → OnceFree pool := by
  have spaced := spaced_of_small ⟨.array, 90, 3, 16, 16384⟩ 32767 rfl (by decide)
  exact ⟨spaced,
    (scan_frees_once_iff ⟨.array, 90, 3, 16, 16384⟩ rfl 16384 32767 (by decide) (by decide)).mpr
      spaced⟩

/-- In a pool of 2^28 items the product of the number of items and the factor wraps to 0, and the
scan puts an item into the ring that is there already. -/
theorem scan_frees_twice :
    ∃ pool : Pool (Fin (2 ^ 28)), Reached ⟨.array, 90, 3, 16, 2 ^ 28⟩ (2 ^ 29 - 1) pool ∧
      ¬ pool.ring.queue.Nodup := by
  refine exists_twice ?_ rfl (by norm_num)
  intro spaced
  have limit := spaced 1 1 (by norm_num) (by norm_num) (.inl rfl) (by decide)
  exact absurd limit (by decide)

end Dmm.ResMgr
