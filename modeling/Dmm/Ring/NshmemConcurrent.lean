import Dmm.Ring.NshmemPositions

/-!
# The process-local ring under concurrency

Any number of threads of one process call the operations of a ring. A thread that has read
an index may be overtaken while it waits. What it knows of the index is then worthless, and
its compare-and-swap fails, unless the index has gone all the way round: that takes 2³²
reservations or 2³² claimed elements during one call (`Since`).

Each side waits for `tail = head` before it moves its head, so that the thread that moves
it is alone inside; from there on what it knows is its own. A single-threaded side has no
need to wait.
-/

namespace Dmm.Ring.Nshmem

open Dmm.Machine Dmm.Word

variable {ι : Type} {k : Nat} {pid : UInt32} {fl : Flavour ι} {g g' : Ghost ι} {r : MemRing}
  {log : List Event} {i j : ι} {b : Nat}

/-! ## What a thread knows while it is outside -/

/-- Position `P` was read from the head of a side during the call. -/
structure Since (side : Side) (g : Ghost ι) (b P : Nat) : Prop where
  born : movesOf side (g.log.take b) ≤ P
  reached : P ≤ g.head side

/-- There was room for a producer at the position, or another one has come first. -/
def Room (k : Nat) (g : Ghost ι) (P : Nat) : Prop := P < g.prodHead ∨ P < g.consTail + 2 ^ k

/-- There was stock for a consumer at the position, or another one has come first. -/
def Stock (g : Ghost ι) (P : Nat) (num : UInt32) : Prop :=
  P < g.consHead ∨ P + num.toNat ≤ g.prodTail

/-- Nobody was inside at the position, or another thread has come first. -/
def Clear (g : Ghost ι) (side : Side) (P : Nat) : Prop := P < g.head side ∨ P ≤ g.tail side

/-- What a thread knows inside the wait loop. -/
def WaitPc.Knows (k : Nat) (pid : UInt32) (g : Ghost ι) (side : Side) (P : Nat) : WaitPc → Prop
  | .loadTail => True
  | .loadHead tail => ∃ T, tail = word T ∧ T ≤ g.tail side ∧ P ≤ T + 2 ^ k
  | .loadFlag => Clear g side P
  | .cmpFlag flag => Clear g side P ∧ flag = pid

theorem moves_split (side : Side) (g : Ghost ι) (b : Nat) :
    g.head side = movesOf side (g.log.take b) + movesOf side (g.log.drop b) := by
  rw [← movesOf_append, List.take_append_drop, g.head_eq]

theorem Since.load (side : Side) (g : Ghost ι) (b : Nat) : Since side g b (g.head side) := by
  constructor
  · rw [moves_split side g b]
    exact Nat.le_add_right _ _
  · exact Nat.le_refl _

theorem Since.near {side : Side} {P : Nat} (since : Since side g b P)
    (few : movesOf side (g.log.drop b) < 2 ^ 32) : g.head side < P + 2 ^ 32 := by
  have born := since.born
  rw [moves_split side g b]
  omega

theorem Since.stable {side : Side} {P : Nat} (since : Since side g b P) (guar : Guar fl i g g')
    (started : b ≤ g.log.length) : Since side g' b P := by
  constructor
  · obtain ⟨rest, grown⟩ := guar.log_le
    rw [← grown, List.take_append_of_le_length started]
    exact since.born
  · exact Nat.le_trans since.reached (guar.head_le side)

theorem Room.stable {P : Nat} (room : Room k g P) (guar : Guar fl i g g') : Room k g' P := by
  rcases room with behind | below
  · exact .inl (Nat.lt_of_lt_of_le behind (guar.head_le .prod))
  · exact .inr (Nat.lt_of_lt_of_le below (Nat.add_le_add_right guar.consTail_le _))

theorem Stock.stable {P : Nat} {num : UInt32} (stock : Stock g P num) (guar : Guar fl i g g') :
    Stock g' P num := by
  rcases stock with behind | above
  · exact .inl (Nat.lt_of_lt_of_le behind (guar.head_le .cons))
  · exact .inr (Nat.le_trans above guar.prodTail_le)

/-- A side found empty stays so for the position, until another thread comes first. -/
theorem Clear.stable {side : Side} {P : Nat} (clear : Clear g side P) (guar : Guar fl i g g') :
    Clear g' side P := by
  rcases clear with behind | below
  · exact .inl (Nat.lt_of_lt_of_le behind (guar.head_le side))
  · exact .inr (Nat.le_trans below (guar.tail_le side))

theorem WaitPc.Knows.stable {side : Side} {P : Nat} {pc : WaitPc}
    (knows : pc.Knows k pid g side P) (guar : Guar fl i g g') : pc.Knows k pid g' side P := by
  cases pc with
  | loadTail => trivial
  | loadHead tail =>
    obtain ⟨T, rfl, below, near⟩ := knows
    exact ⟨T, rfl, Nat.le_trans below (guar.tail_le side), near⟩
  | loadFlag => exact Clear.stable knows guar
  | cmpFlag flag => exact ⟨knows.1.stable guar, knows.2⟩

/-- What a thread knows after the wait loop, or inside it. -/
def WaitPc.Leads (k : Nat) (pid : UInt32) (g : Ghost ι) (side : Side) (P : Nat) :
    WaitPc ⊕ Unit → Prop
  | .inl pc => pc.Knows k pid g side P
  | .inr _ => Clear g side P

/-- One access of the wait loop. The tail and the head are read one after the other; equal
words are equal positions, or the head has passed the thread's own position. -/
theorem wait_leads {side : Side} {P : Nat} {pc : WaitPc} (tracks : Tracks k pid fl g r log)
    (fits : k < 32) (since : Since side g b P) (few : movesOf side (g.log.drop b) < 2 ^ 32)
    (knows : pc.Knows k pid g side P) : WaitPc.Leads k pid g side P (waitStep side pc r) := by
  have size : 2 ^ k ≤ 2 ^ 31 := Nat.pow_le_pow_right (by decide) (by omega)
  have window := tracks.tail_window side
  have near := since.near few
  have reached := since.reached
  cases pc with
  | loadTail => exact ⟨g.tail side, tracks.tail_eq side, Nat.le_refl _, by omega⟩
  | loadHead tail =>
    obtain ⟨T, rfl, below, close⟩ := knows
    simp only [waitStep, tracks.head_eq side, WaitPc.Leads]
    by_cases same : word T = word (g.head side)
    · rw [if_neg (not_not.mpr same)]
      change Clear g side P
      by_cases passed : P < g.head side
      · exact .inl passed
      · have equal : T = g.head side := (word_inj (by omega) (by omega)).mp same
        exact .inr (by omega)
    · rw [if_pos same]
      trivial
  | loadFlag =>
    refine ⟨knows, ?_⟩
    grind [tracks.tflag_eq, tracks.hflag_eq]
  | cmpFlag flag =>
    obtain ⟨clear, rfl⟩ := knows
    cases side with
    | prod =>
      simp only [waitStep, tracks.hflag_eq, ne_eq, not_true_eq_false, if_false]
      exact clear
    | cons =>
      simp only [waitStep, tracks.tflag_eq, ne_eq, not_true_eq_false, if_false]
      exact clear

/-! ## What a thread knows at each of its accesses -/

/-- What a thread knows inside `nsfw_nshmem_ring_mp_enqueue`. -/
def MpPc.Knows (k : Nat) (pid : UInt32) (i : ι) (b : Nat) (g : Ghost ι) : MpPc → Prop
  | .loadHead _ => g.producer ≠ some i
  | .loadTail _ h => g.producer ≠ some i ∧ ∃ P, h = word P ∧ Since .prod g b P
  | .recov _ h pc =>
    g.producer ≠ some i ∧ pc = .loadFlag ∧ ∃ P, h = word P ∧ Since .prod g b P ∧ Room k g P
  | .wait _ h pc => g.producer ≠ some i ∧
    ∃ P, h = word P ∧ Since .prod g b P ∧ Room k g P ∧ pc.Knows k pid g .prod P
  | .cas _ h => g.producer ≠ some i ∧
    ∃ P, h = word P ∧ Since .prod g b P ∧ Room k g P ∧ Clear g .prod P
  | .write obj h => Reserved g i obj h
  | .turn h => Written g i h
  | .publish h => Written g i h

/-- What the lone producer knows inside `nsfw_nshmem_ring_sp_enqueue`. -/
def SpPc.Knows (k : Nat) (i : ι) (g : Ghost ι) : SpPc → Prop
  | .loadHead _ => g.producer = none
  | .loadTail _ h => g.producer = none ∧ h = word g.prodHead
  | .recov _ h pc => g.producer = none ∧ pc = .loadFlag ∧ h = word g.prodHead ∧
    g.prodHead < g.consTail + 2 ^ k
  | .storeHead _ h => g.producer = none ∧ h = word g.prodHead ∧ g.prodHead < g.consTail + 2 ^ k
  | .write obj h => Reserved g i obj h
  | .storeTail h => Written g i h

/-- What a thread knows inside `nsfw_nshmem_ring_mc_dequeuev`. -/
def McPc.Knows (k : Nat) (pid : UInt32) (i : ι) (b : Nat) (g : Ghost ι) : McPc → Prop
  | .start _ => g.consumer ≠ some i
  | .recov n pc => g.consumer ≠ some i ∧ n ≠ 0 ∧ pc = .loadFlag
  | .loadHead n => g.consumer ≠ some i ∧ n ≠ 0
  | .loadTail n h => g.consumer ≠ some i ∧ n ≠ 0 ∧ ∃ P, h = word P ∧ Since .cons g b P
  | .wait n h num pc => g.consumer ≠ some i ∧ n ≠ 0 ∧ num ≠ 0 ∧
    ∃ P, h = word P ∧ Since .cons g b P ∧ Stock g P num ∧ pc.Knows k pid g .cons P
  | .cas n h num => g.consumer ≠ some i ∧ n ≠ 0 ∧ num ≠ 0 ∧
    ∃ P, h = word P ∧ Since .cons g b P ∧ Stock g P num ∧ Clear g .cons P
  | .copy h num todo out => Copying k g i h num todo out
  | .turn h num out => Copying k g i h num [] out
  | .publish h num out => Copying k g i h num [] out

/-- What the lone consumer knows inside `nsfw_nshmem_ring_sc_dequeuev`. -/
def ScPc.Knows (k : Nat) (i : ι) (g : Ghost ι) : ScPc → Prop
  | .loadHead _ => g.consumer = none
  | .loadTail _ h => g.consumer = none ∧ h = word g.consHead
  | .recov h num pc => g.consumer = none ∧ pc = .loadFlag ∧ h = word g.consHead ∧
    g.consHead + num.toNat ≤ g.prodTail
  | .storeHead h num => g.consumer = none ∧ h = word g.consHead ∧
    g.consHead + num.toNat ≤ g.prodTail
  | .copy h num todo out => Copying k g i h num todo out
  | .storeTail h num out => Copying k g i h num [] out

/-- What a reserved slot is stays while its producer holds the side. -/
theorem Reserved.stable {obj : Obj} {h : UInt32} (reserved : Reserved g i obj h)
    (guar : Guar fl j g g') (other : i ≠ j) : Reserved g' i obj h := by
  have same := guar.prod i other (.inl reserved.inside)
  constructor <;> grind [same.producer_eq, same.prodTail_eq, same.written_eq, same.reserved_eq,
    Reserved]

/-- What a written slot is stays while its producer holds the side. -/
theorem Written.stable {h : UInt32} (written : Written g i h) (guar : Guar fl j g g')
    (other : i ≠ j) : Written g' i h := by
  have same := guar.prod i other (.inl written.inside)
  constructor <;> grind [same.producer_eq, same.prodTail_eq, same.written_eq, Written]

/-- What is being copied stays while its consumer holds the side. -/
theorem Copying.stable {h num : UInt32} {todo : List Nat} {out : List Obj}
    (copying : Copying k g i h num todo out) (guar : Guar fl j g g') (other : i ≠ j) :
    Copying k g' i h num todo out := by
  have same := guar.cons i other (.inl copying.inside)
  have head : g'.consHead = g.consHead := same.claimed_eq
  have read : g'.read = g.read := congrArg List.length same.delivered_eq
  constructor <;> grind [same.consumer_eq, same.consTail_eq, same.delivered_eq, Copying]

/-- What a producer knows survives the accesses of the others. -/
theorem MpPc.Knows.stable {l : MpPc} (knows : l.Knows k pid i b g) (guar : Guar fl j g g')
    (other : i ≠ j) (started : b ≤ g.log.length) : l.Knows k pid i b g' := by
  have outside : g.producer ≠ some i → g'.producer ≠ some i := guar.outside other .prod
  cases l with
  | loadHead obj => exact outside knows
  | loadTail obj h =>
    obtain ⟨out, P, rfl, since⟩ := knows
    exact ⟨outside out, P, rfl, since.stable guar started⟩
  | recov obj h pc =>
    obtain ⟨out, rfl, P, rfl, since, room⟩ := knows
    exact ⟨outside out, rfl, P, rfl, since.stable guar started, room.stable guar⟩
  | wait obj h pc =>
    obtain ⟨out, P, rfl, since, room, waits⟩ := knows
    exact ⟨outside out, P, rfl, since.stable guar started, room.stable guar, waits.stable guar⟩
  | cas obj h =>
    obtain ⟨out, P, rfl, since, room, clear⟩ := knows
    exact ⟨outside out, P, rfl, since.stable guar started, room.stable guar, clear.stable guar⟩
  | write obj h => exact Reserved.stable knows guar other
  | turn h => exact Written.stable knows guar other
  | publish h => exact Written.stable knows guar other

/-- What the lone producer knows survives the accesses of the others. -/
theorem SpPc.Knows.stable {l : SpPc} (knows : l.Knows k i g) (lone : fl.producer = some i)
    (guar : Guar fl j g g') (other : i ≠ j) : l.Knows k i g' := by
  have same := guar.prod i other (.inr lone)
  have head : g'.prodHead = g.prodHead := congrArg List.length same.reserved_eq
  have tail := guar.consTail_le
  cases l with
  | loadHead obj => exact same.producer_eq.trans knows
  | loadTail obj h => exact ⟨same.producer_eq.trans knows.1, head ▸ knows.2⟩
  | recov obj h pc =>
    obtain ⟨free, rfl, rfl, room⟩ := knows
    exact ⟨same.producer_eq.trans free, rfl, by rw [head], by omega⟩
  | storeHead obj h =>
    obtain ⟨free, rfl, room⟩ := knows
    exact ⟨same.producer_eq.trans free, by rw [head], by omega⟩
  | write obj h => exact Reserved.stable knows guar other
  | storeTail h => exact Written.stable knows guar other

/-- What a consumer knows survives the accesses of the others. -/
theorem McPc.Knows.stable {l : McPc} (knows : l.Knows k pid i b g) (guar : Guar fl j g g')
    (other : i ≠ j) (started : b ≤ g.log.length) : l.Knows k pid i b g' := by
  have outside : g.consumer ≠ some i → g'.consumer ≠ some i := guar.outside other .cons
  cases l with
  | start n => exact outside knows
  | recov n pc => exact ⟨outside knows.1, knows.2⟩
  | loadHead n => exact ⟨outside knows.1, knows.2⟩
  | loadTail n h =>
    obtain ⟨out, asked, P, rfl, since⟩ := knows
    exact ⟨outside out, asked, P, rfl, since.stable guar started⟩
  | wait n h num pc =>
    obtain ⟨out, asked, some, P, rfl, since, stock, waits⟩ := knows
    exact ⟨outside out, asked, some, P, rfl, since.stable guar started, stock.stable guar,
      waits.stable guar⟩
  | cas n h num =>
    obtain ⟨out, asked, some, P, rfl, since, stock, clear⟩ := knows
    exact ⟨outside out, asked, some, P, rfl, since.stable guar started, stock.stable guar,
      clear.stable guar⟩
  | copy h num todo out => exact Copying.stable knows guar other
  | turn h num out => exact Copying.stable knows guar other
  | publish h num out => exact Copying.stable knows guar other

/-- What the lone consumer knows survives the accesses of the others. -/
theorem ScPc.Knows.stable {l : ScPc} (knows : l.Knows k i g) (lone : fl.consumer = some i)
    (guar : Guar fl j g g') (other : i ≠ j) : l.Knows k i g' := by
  have same := guar.cons i other (.inr lone)
  have head : g'.consHead = g.consHead := same.claimed_eq
  have tail := guar.prodTail_le
  cases l with
  | loadHead n => exact same.consumer_eq.trans knows
  | loadTail n h => exact ⟨same.consumer_eq.trans knows.1, head ▸ knows.2⟩
  | recov h num pc =>
    obtain ⟨free, rfl, rfl, stock⟩ := knows
    exact ⟨same.consumer_eq.trans free, rfl, by rw [head], by omega⟩
  | storeHead h num =>
    obtain ⟨free, rfl, stock⟩ := knows
    exact ⟨same.consumer_eq.trans free, by rw [head], by omega⟩
  | copy h num todo out => exact Copying.stable knows guar other
  | storeTail h num out => exact Copying.stable knows guar other

/-! ## What one access does -/

/-- The side across. -/
def Side.other : Side → Side
  | .prod => .cons
  | .cons => .prod

/-- An access of thread `i` to one side has a ghost value that tracks what it leaves, within
what it guarantees to the others; the thread then knows what its next local state asks for,
or has returned and is outside. -/
def Keeps {τ : Type} (k : Nat) (pid : UInt32) (fl : Flavour ι) (i : ι) (g : Ghost ι)
    (log : List Event) (side : Side) (knows : Ghost ι → τ → Prop) (e : Option Event)
    (out : (τ ⊕ Result) × MemRing) : Prop :=
  ∃ g', Guar fl i g g' ∧ Tracks k pid fl g' out.2 (log ++ e.toList) ∧
    g'.holder side.other = g.holder side.other ∧
    match out.1 with
    | .inl l => knows g' l
    | .inr _ => g'.holder side ≠ some i

section Keeps

variable {τ : Type} {side : Side} {knows : Ghost ι → τ → Prop}

theorem Keeps.moves {l : τ} {r' : MemRing} (g' : Ghost ι) (guar : Guar fl i g g')
    (tracks : Tracks k pid fl g' r' log) (across : g'.holder side.other = g.holder side.other)
    (known : knows g' l) : Keeps k pid fl i g log side knows none (.inl l, r') :=
  ⟨g', guar, by rwa [Option.toList, List.append_nil], across, known⟩

/-- An access that moves a position, commits nothing and ends the call. -/
theorem Keeps.leaves {res : Result} {r' : MemRing} (g' : Ghost ι) (guar : Guar fl i g g')
    (tracks : Tracks k pid fl g' r' log) (across : g'.holder side.other = g.holder side.other)
    (outside : g'.holder side ≠ some i) :
    Keeps k pid fl i g log side knows none (.inr res, r') :=
  ⟨g', guar, by rwa [Option.toList, List.append_nil], across, outside⟩

theorem Keeps.still {l : τ} (tracks : Tracks k pid fl g r log) (known : knows g l) :
    Keeps k pid fl i g log side knows none (.inl l, r) :=
  .moves g (.refl fl i g) tracks rfl known

theorem Keeps.stops {res : Result} (tracks : Tracks k pid fl g r log)
    (outside : g.holder side ≠ some i) : Keeps k pid fl i g log side knows none (.inr res, r) :=
  .leaves g (.refl fl i g) tracks rfl outside

end Keeps

/-- The room test of a producer that holds a position. -/
theorem Since.room {P : Nat} (since : Since .prod g b P) (tracks : Tracks k pid fl g r log)
    (fits : k < 32) (found : ¬ 1 > r.size + r.consTail - word P) : Room k g P := by
  have reached : P ≤ g.prodHead := since.reached
  have limit := tracks.limit
  have size : 2 ^ k < 2 ^ 32 := Nat.pow_lt_pow_right (by decide) fits
  have bounds := tracks.tail_window .prod
  have ordered : g.consTail ≤ g.prodHead := by
    grind [tracks.consTail_le, tracks.read_le, tracks.consHead_le, tracks.prodTail_le,
      tracks.written_le]
  by_cases passed : P < g.prodHead
  · exact .inl passed
  · right
    grind [tracks.size_eq, tracks.consTail_eq, word_add]

/-- A producer that wins its compare-and-swap finds the side free and room for its slot. -/
theorem Since.wins {P : Nat} (since : Since .prod g b P) (tracks : Tracks k pid fl g r log)
    (few : movesOf .prod (g.log.drop b) < 2 ^ 32) (room : Room k g P) (clear : Clear g .prod P)
    (same : r.prodHead = word P) :
    P = g.prodHead ∧ g.producer = none ∧ g.prodHead < g.consTail + 2 ^ k := by
  have near : g.prodHead < P + 2 ^ 32 := since.near few
  have reached : P ≤ g.prodHead := since.reached
  rw [tracks.prodHead_eq, word_inj near (by omega)] at same
  have room : P < g.prodHead ∨ P < g.consTail + 2 ^ k := room
  have clear : P < g.prodHead ∨ P ≤ g.prodTail := clear
  refine ⟨same.symm, ?_, by omega⟩
  cases holder : g.producer with
  | none => rfl
  | some j =>
    have one := tracks.producer_some j holder
    omega

/-- One access of `nsfw_nshmem_ring_mp_enqueue`. -/
theorem mp_keeps {l : MpPc} (tracks : Tracks k pid fl g r log) (fits : k < 32)
    (everybody : fl.producer = none) (few : movesOf .prod (g.log.drop b) < 2 ^ 32)
    (known : l.Knows k pid i b g) :
    Keeps k pid fl i g log .prod (MpPc.Knows k pid i b) ((mpEnqueue pid).event l r)
      ((mpEnqueue pid).step l r) := by
  cases l with
  | loadHead obj => exact .still tracks ⟨known, _, tracks.prodHead_eq, .load .prod g b⟩
  | loadTail obj h =>
    obtain ⟨outside, P, rfl, since⟩ := known
    by_cases full : 1 > r.size + r.consTail - word P
    · simp only [mpEnqueue, mpStep, if_pos full]
      exact .stops tracks outside
    · simp only [mpEnqueue, mpStep, if_neg full]
      exact .still tracks ⟨outside, rfl, P, rfl, since, since.room tracks fits full⟩
  | recov obj h pc =>
    obtain ⟨outside, rfl, P, rfl, since, room⟩ := known
    have own := tracks.hflag_eq .prod
    simp only [mpEnqueue, mpStep, recovStep, own, ne_eq, not_true_eq_false, if_false]
    exact .still tracks ⟨outside, P, rfl, since, room, trivial⟩
  | wait obj h pc =>
    obtain ⟨outside, P, rfl, since, room, waits⟩ := known
    have leads := wait_leads tracks fits since few waits
    simp only [mpEnqueue, mpStep]
    cases next : waitStep .prod pc r with
    | inl pc' =>
      rw [next] at leads
      exact .still tracks ⟨outside, P, rfl, since, room, leads⟩
    | inr done =>
      rw [next] at leads
      exact .still tracks ⟨outside, P, rfl, since, room, leads⟩
  | cas obj h =>
    obtain ⟨outside, P, rfl, since, room, clear⟩ := known
    by_cases same : r.prodHead = word P
    · obtain ⟨rfl, free, space⟩ := since.wins tracks few room clear same
      obtain ⟨guar, tracks', reserved⟩ := tracks.reserve free (.inl everybody) space obj (i := i)
      simp only [mpEnqueue, mpStep, if_pos same]
      exact ⟨g.reserve i obj, guar, tracks', rfl, reserved⟩
    · simp only [mpEnqueue, mpStep, if_neg same]
      exact .still tracks outside
  | write obj h =>
    obtain ⟨guar, tracks', written⟩ := tracks.write fits (.inl everybody) known
    exact .moves g.write guar tracks' rfl written
  | turn h =>
    simp only [mpEnqueue, mpStep]
    split
    · exact .still tracks known
    · exact .still tracks known
  | publish h =>
    obtain ⟨guar, tracks'⟩ := tracks.publish (.inl everybody) known
    exact .leaves g.publish guar tracks' rfl (fun inside => by cases inside)

/-- One access of `nsfw_nshmem_ring_sp_enqueue`. -/
theorem sp_keeps {l : SpPc} (tracks : Tracks k pid fl g r log) (fits : k < 32)
    (lone : fl.producer = some i) (known : l.Knows k i g) :
    Keeps k pid fl i g log .prod (SpPc.Knows k i) ((spEnqueue pid).event l r)
      ((spEnqueue pid).step l r) := by
  have outside : g.producer = none → g.producer ≠ some i := fun none => by simp [none]
  cases l with
  | loadHead obj => exact .still tracks ⟨known, tracks.prodHead_eq⟩
  | loadTail obj h =>
    obtain ⟨free, rfl⟩ := known
    by_cases full : 1 > r.size + r.consTail - word g.prodHead
    · simp only [spEnqueue, spStep, if_pos full]
      exact .stops tracks (outside free)
    · simp only [spEnqueue, spStep, if_neg full]
      have room := (Since.load .prod g 0).room tracks fits full
      exact .still tracks ⟨free, rfl, rfl, room.resolve_left (Nat.lt_irrefl _)⟩
  | recov obj h pc =>
    obtain ⟨free, rfl, rfl, room⟩ := known
    have own := tracks.hflag_eq .prod
    simp only [spEnqueue, spStep, recovStep, own, ne_eq, not_true_eq_false, if_false]
    exact .still tracks ⟨free, rfl, room⟩
  | storeHead obj h =>
    obtain ⟨free, rfl, room⟩ := known
    obtain ⟨guar, tracks', reserved⟩ := tracks.reserve free (.inr lone) room obj
    exact ⟨g.reserve i obj, guar, tracks', rfl, reserved⟩
  | write obj h =>
    obtain ⟨guar, tracks', written⟩ := tracks.write fits (.inr lone) known
    exact .moves g.write guar tracks' rfl written
  | storeTail h =>
    obtain ⟨guar, tracks'⟩ := tracks.publish (.inr lone) known
    exact .leaves g.publish guar tracks' rfl (fun inside => by cases inside)

/-- The stock test of a consumer that holds a position. -/
theorem Since.stock {P : Nat} {num : UInt32} (since : Since .cons g b P)
    (tracks : Tracks k pid fl g r log) (fits : k < 32) (found : num ≤ r.prodTail - word P) :
    Stock g P num := by
  have reached : P ≤ g.consHead := since.reached
  have size : 2 ^ k < 2 ^ 32 := Nat.pow_lt_pow_right (by decide) fits
  have published := tracks.consHead_le
  have limit : g.prodTail < g.consHead + 2 ^ 32 := by
    grind [tracks.consTail_le, tracks.read_le, tracks.prodTail_le, tracks.written_le, tracks.limit]
  by_cases passed : P < g.consHead
  · exact .inl passed
  · right
    rw [UInt32.le_iff_toNat_le, tracks.prodTail_eq, toNat_word_sub (by omega) (by omega)] at found
    omega

/-- A consumer that wins its compare-and-swap finds the side free and its elements there. -/
theorem Since.takes {P : Nat} {num : UInt32} (since : Since .cons g b P)
    (tracks : Tracks k pid fl g r log) (everybody : fl.consumer = none)
    (few : movesOf .cons (g.log.drop b) < 2 ^ 32) (stock : Stock g P num)
    (clear : Clear g .cons P) (same : r.consHead = word P) :
    P = g.consHead ∧ g.consumer = none ∧ g.consHead + num.toNat ≤ g.prodTail := by
  have near : g.consHead < P + 2 ^ 32 := since.near few
  have reached : P ≤ g.consHead := since.reached
  rw [tracks.consHead_eq, word_inj near (by omega)] at same
  have stock : P < g.consHead ∨ P + num.toNat ≤ g.prodTail := stock
  have clear : P < g.consHead ∨ P ≤ g.consTail := clear
  refine ⟨same.symm, ?_, by omega⟩
  cases holder : g.consumer with
  | none => rfl
  | some j => grind [tracks.consumer_some]

/-- One access of `nsfw_nshmem_ring_mc_dequeuev`. -/
theorem mc_keeps {l : McPc} (tracks : Tracks k pid fl g r log) (fits : k < 32)
    (everybody : fl.consumer = none) (few : movesOf .cons (g.log.drop b) < 2 ^ 32)
    (known : l.Knows k pid i b g) :
    Keeps k pid fl i g log .cons (McPc.Knows k pid i b) ((mcDequeue pid).event l r)
      ((mcDequeue pid).step l r) := by
  cases l with
  | start n =>
    by_cases zero : n = 0
    · simp only [mcDequeue, mcStep, if_pos zero]
      exact .stops tracks known
    · simp only [mcDequeue, mcStep, if_neg zero]
      exact .still tracks ⟨known, zero, rfl⟩
  | recov n pc =>
    obtain ⟨outside, asked, rfl⟩ := known
    have own := tracks.hflag_eq .cons
    simp only [mcDequeue, mcStep, recovStep, own, ne_eq, not_true_eq_false, if_false]
    exact .still tracks ⟨outside, asked⟩
  | loadHead n => exact .still tracks ⟨known.1, known.2, _, tracks.consHead_eq, .load .cons g b⟩
  | loadTail n h =>
    obtain ⟨outside, asked, P, rfl, since⟩ := known
    simp only [mcDequeue, mcStep]
    by_cases few : n > r.prodTail - word P
    · by_cases some : r.prodTail - word P > 0
      · rw [if_pos few, if_pos some]
        have stock := since.stock tracks fits (UInt32.le_refl _)
        exact .still tracks ⟨outside, asked, (UInt32.ne_of_lt some).symm, P, rfl, since, stock,
          trivial⟩
      · rw [if_pos few, if_neg some]
        exact .stops tracks outside
    · rw [if_neg few]
      have stock := since.stock tracks fits (UInt32.not_lt.mp few)
      exact .still tracks ⟨outside, asked, asked, P, rfl, since, stock, trivial⟩
  | wait n h num pc =>
    obtain ⟨outside, asked, some, P, rfl, since, stock, waits⟩ := known
    have leads := wait_leads tracks fits since few waits
    simp only [mcDequeue, mcStep]
    cases next : waitStep .cons pc r with
    | inl pc' =>
      rw [next] at leads
      exact .still tracks ⟨outside, asked, some, P, rfl, since, stock, leads⟩
    | inr done =>
      rw [next] at leads
      exact .still tracks ⟨outside, asked, some, P, rfl, since, stock, leads⟩
  | cas n h num =>
    obtain ⟨outside, asked, some, P, rfl, since, stock, clear⟩ := known
    by_cases same : r.consHead = word P
    · obtain ⟨rfl, free, there⟩ := since.takes tracks everybody few stock clear same
      obtain ⟨guar, tracks', copying⟩ := tracks.claim fits free (.inl ⟨everybody, some⟩) there
        (i := i)
      simp only [mcDequeue, mcStep, if_pos same]
      exact ⟨g.claim i num.toNat, guar, tracks', rfl, copying⟩
    · simp only [mcDequeue, mcStep, if_neg same]
      exact .still tracks ⟨outside, asked⟩
  | copy h num todo out =>
    cases todo with
    | nil => exact .still tracks known
    | cons idx todo =>
      obtain ⟨guar, tracks', copying⟩ := tracks.deliver (.inl everybody) known
      exact ⟨g.deliver _, guar, tracks', rfl, copying⟩
  | turn h num out =>
    simp only [mcDequeue, mcStep]
    split
    · exact .still tracks known
    · exact .still tracks known
  | publish h num out =>
    obtain ⟨guar, tracks'⟩ := tracks.retire (.inl everybody) known
    exact .leaves g.retire guar tracks' rfl (fun inside => by cases inside)

/-- One access of `nsfw_nshmem_ring_sc_dequeuev`. -/
theorem sc_keeps {l : ScPc} (tracks : Tracks k pid fl g r log) (fits : k < 32)
    (lone : fl.consumer = some i) (known : l.Knows k i g) :
    Keeps k pid fl i g log .cons (ScPc.Knows k i) ((scDequeue pid).event l r)
      ((scDequeue pid).step l r) := by
  have outside : g.consumer = none → g.consumer ≠ some i := fun none => by simp [none]
  have since : Since .cons g 0 g.consHead := .load .cons g 0
  cases l with
  | loadHead n => exact .still tracks ⟨known, tracks.consHead_eq⟩
  | loadTail n h =>
    obtain ⟨free, rfl⟩ := known
    simp only [scDequeue, scStep]
    by_cases few : n > r.prodTail - word g.consHead
    · by_cases some : r.prodTail - word g.consHead > 0
      · rw [if_pos few, if_pos some]
        have stock := since.stock tracks fits (UInt32.le_refl _)
        exact .still tracks ⟨free, rfl, rfl, stock.resolve_left (Nat.lt_irrefl _)⟩
      · rw [if_pos few, if_neg some]
        exact .stops tracks (outside free)
    · rw [if_neg few]
      have stock := since.stock tracks fits (UInt32.not_lt.mp few)
      exact .still tracks ⟨free, rfl, rfl, stock.resolve_left (Nat.lt_irrefl _)⟩
  | recov h num pc =>
    obtain ⟨free, rfl, rfl, stock⟩ := known
    have own := tracks.hflag_eq .cons
    simp only [scDequeue, scStep, recovStep, own, ne_eq, not_true_eq_false, if_false]
    exact .still tracks ⟨free, rfl, stock⟩
  | storeHead h num =>
    obtain ⟨free, rfl, stock⟩ := known
    obtain ⟨guar, tracks', copying⟩ := tracks.claim fits free (.inr lone) stock
    exact ⟨g.claim i num.toNat, guar, tracks', rfl, copying⟩
  | copy h num todo out =>
    cases todo with
    | nil => exact .still tracks known
    | cons idx todo =>
      obtain ⟨guar, tracks', copying⟩ := tracks.deliver (.inr lone) known
      exact ⟨g.deliver _, guar, tracks', rfl, copying⟩
  | storeTail h num out =>
    obtain ⟨guar, tracks'⟩ := tracks.retire (.inr lone) known
    exact .leaves g.retire guar tracks' rfl (fun inside => by cases inside)

/-! ## Every thread, in every reachable pool -/

/-- Local states of a thread inside a call. -/
abbrev Pc := (MpPc ⊕ SpPc) ⊕ (McPc ⊕ ScPc)

/-- What a thread knows, and by which operation it may be there. -/
def Placed (k : Nat) (pid : UInt32) (fl : Flavour ι) (g : Ghost ι) (i : ι) (b : Nat) :
    Option Pc → Prop
  | none => ∀ side, g.holder side ≠ some i
  | some (.inl (.inl l)) =>
    fl.producer = none ∧ g.consumer ≠ some i ∧ b ≤ g.log.length ∧ l.Knows k pid i b g
  | some (.inl (.inr l)) => fl.producer = some i ∧ g.consumer ≠ some i ∧ l.Knows k i g
  | some (.inr (.inl l)) =>
    fl.consumer = none ∧ g.producer ≠ some i ∧ b ≤ g.log.length ∧ l.Knows k pid i b g
  | some (.inr (.inr l)) => fl.consumer = some i ∧ g.producer ≠ some i ∧ l.Knows k i g

theorem Guar.started (guar : Guar fl i g g') (started : b ≤ g.log.length) :
    b ≤ g'.log.length :=
  Nat.le_trans started guar.log_le.length_le

/-- What a thread knows survives the accesses of the others. -/
theorem Placed.stable {l : Option Pc} (placed : Placed k pid fl g i b l)
    (guar : Guar fl j g g') (other : i ≠ j) : Placed k pid fl g' i b l := by
  match l, placed with
  | none, outside => exact fun side => guar.outside other side (outside side)
  | some (.inl (.inl l)), ⟨flavour, across, started, knows⟩ =>
    exact ⟨flavour, guar.outside other .cons across, guar.started started,
      knows.stable guar other started⟩
  | some (.inl (.inr l)), ⟨flavour, across, knows⟩ =>
    exact ⟨flavour, guar.outside other .cons across, knows.stable flavour guar other⟩
  | some (.inr (.inl l)), ⟨flavour, across, started, knows⟩ =>
    exact ⟨flavour, guar.outside other .prod across, guar.started started,
      knows.stable guar other started⟩
  | some (.inr (.inr l)), ⟨flavour, across, knows⟩ =>
    exact ⟨flavour, guar.outside other .prod across, knows.stable flavour guar other⟩

/-- An access that keeps a side leaves its thread in its place. -/
theorem Keeps.placed {τ : Type} {side : Side} {knows : Ghost ι → τ → Prop} {e : Option Event}
    {out : (τ ⊕ Result) × MemRing} (embed : τ → Pc)
    (keeps : Keeps k pid fl i g log side knows e out) (across : g.holder side.other ≠ some i)
    (places : ∀ g' l, Guar fl i g g' → g'.holder side.other ≠ some i → knows g' l →
      Placed k pid fl g' i b (some (embed l))) :
    ∃ g', Guar fl i g g' ∧ Tracks k pid fl g' out.2 (log ++ e.toList) ∧
      Placed k pid fl g' i b (out.1.getLeft?.map embed) := by
  obtain ⟨g', guar, tracks, same, after⟩ := keeps
  refine ⟨g', guar, tracks, ?_⟩
  have across : g'.holder side.other ≠ some i := same ▸ across
  cases next : out.1 with
  | inl l =>
    rw [next] at after
    exact places g' l guar across after
  | inr res =>
    rw [next] at after
    intro which
    cases side with
    | prod => cases which with
      | prod => exact after
      | cons => exact across
    | cons => cases which with
      | prod => exact across
      | cons => exact after

/-- One access of any thread keeps the positions tracked. -/
theorem access_placed {l : Pc} (tracks : Tracks k pid fl g r log) (fits : k < 32)
    (few : ∀ side, movesOf side (g.log.drop b) < 2 ^ 32)
    (placed : Placed k pid fl g i b (some l)) :
    ∃ g', Guar fl i g g' ∧
      Tracks k pid fl g' ((ops pid).step l r).2 (log ++ ((ops pid).event l r).toList) ∧
      Placed k pid fl g' i b ((ops pid).step l r).1.getLeft? := by
  match l, placed with
  | .inl (.inl l), ⟨flavour, across, started, known⟩ =>
    have kept := (mp_keeps tracks fits flavour (few .prod) known).placed (.inl ∘ .inl) across
      (fun _ _ guar across known => ⟨flavour, across, guar.started started, known⟩)
    simpa [ops, Code.sum] using kept
  | .inl (.inr l), ⟨flavour, across, known⟩ =>
    have kept := (sp_keeps tracks fits flavour known).placed (.inl ∘ .inr) across (b := b)
      (fun _ _ _ across known => ⟨flavour, across, known⟩)
    simpa [ops, Code.sum] using kept
  | .inr (.inl l), ⟨flavour, across, started, known⟩ =>
    have kept := (mc_keeps tracks fits flavour (few .cons) known).placed (.inr ∘ .inl) across
      (fun _ _ guar across known => ⟨flavour, across, guar.started started, known⟩)
    simpa [ops, Code.sum] using kept
  | .inr (.inr l), ⟨flavour, across, known⟩ =>
    have kept := (sc_keeps tracks fits flavour known).placed (.inr ∘ .inr) across (b := b)
      (fun _ _ _ across known => ⟨flavour, across, known⟩)
    simpa [ops, Code.sum] using kept

/-- A ring that was just initialised is tracked by positions that are all zero. -/
theorem tracks_init (fl : Flavour ι) (ring : MemRing) (k addrbase : Nat) (memtype flag : UInt8)
    (pid : UInt32) :
    Tracks k pid fl ⟨[], 0, 0, 0, none, none⟩
      (memRingInit ring (word (2 ^ k)) addrbase memtype flag pid) [] where
  log_eq := rfl
  size_eq := rfl
  mask_eq := word_sub (Nat.one_le_two_pow)
  hflag_eq := fun side => by cases side <;> rfl
  tflag_eq := fun side => by cases side <;> rfl
  prodHead_eq := rfl
  prodTail_eq := rfl
  consHead_eq := rfl
  consTail_eq := rfl
  consTail_le := Nat.le_refl 0
  read_le := Nat.le_refl 0
  consHead_le := Nat.le_refl 0
  prodTail_le := Nat.le_refl 0
  written_le := Nat.le_refl 0
  limit := Nat.zero_le _
  slots := fun _ _ before => absurd before (Nat.not_lt_zero _)
  delivered := List.prefix_refl _
  producer_none := fun _ => rfl
  producer_some := fun _ inside => by cases inside
  producer_lone := fun _ inside => by cases inside
  consumer_none := fun _ => rfl
  consumer_some := fun _ inside => by cases inside

variable [DecidableEq ι]

/-- Fewer than 2³² moves of a head while the call that performs an access is in flight. -/
def fewMoves (side : Side) (p : Pool ι Pc MemRing Event) : Action ι Call → Bool
  | .call _ _ => true
  | .access i => movesOf side (p.inFlight i) < 2 ^ 32

/-- Calls of the flavour; fewer than 2³² reservations and fewer than 2³² claimed elements
while one call is in flight. -/
def fewPerCall (fl : Flavour ι) (p : Pool ι Pc MemRing Event) (a : Action ι Call) : Bool :=
  fl.admits p a && fewMoves .prod p a && fewMoves .cons p a

/-- The start of a call finds its thread outside. -/
theorem call_placed {l : Call} (tracks : Tracks k pid fl g r log) {p : Pool ι Pc MemRing Event}
    (admitted : fl.admits p (.call i l) = true) (outside : Placed k pid fl g i b none) :
    Placed k pid fl g i log.length (some ((ops pid).start l)) := by
  have length : log.length ≤ g.log.length := by rw [tracks.log_eq]
  match l, admitted with
  | .inl (.inl obj), admitted =>
    exact ⟨of_decide_eq_true admitted, outside .cons, length, outside .prod⟩
  | .inl (.inr obj), admitted =>
    have lone : fl.producer = some i := of_decide_eq_true admitted
    refine ⟨lone, outside .cons, ?_⟩
    change g.producer = none
    cases holder : g.producer with
    | none => rfl
    | some j =>
      have mine := tracks.producer_lone j holder
      rw [lone] at mine
      rcases mine with none | same
      · cases none
      · exact absurd (holder.trans same.symm) (outside .prod)
  | .inr (.inl n), admitted =>
    exact ⟨of_decide_eq_true admitted, outside .prod, length, outside .cons⟩
  | .inr (.inr n), admitted =>
    have lone : fl.consumer = some i := of_decide_eq_true admitted
    refine ⟨lone, outside .prod, ?_⟩
    change g.consumer = none
    cases holder : g.consumer with
    | none => rfl
    | some j =>
      rcases tracks.consumer_some j holder with ⟨none, _⟩ | same
      · rw [lone] at none
        cases none
      · exact absurd (holder.trans (same.symm.trans lone)) (outside .cons)

/-- In every pool reached under the bound the positions are tracked and every thread knows
what its local state asks for. -/
theorem reach_tracked {p : Pool ι Pc MemRing Event} (fl : Flavour ι) (ring : MemRing)
    (fits : k < 32) (addrbase : Nat) (memtype flag : UInt8) (pid : UInt32)
    (reach : Reach (ops pid) (fun p a => fewPerCall fl p a)
      (Pool.fresh (memRingInit ring (word (2 ^ k)) addrbase memtype flag pid)) p) :
    Annotated (Tracks k pid fl) (Placed k pid fl) p := by
  apply reach.relyGuarantee _ _ (Guar fl)
  · refine ⟨_, tracks_init fl ring k addrbase memtype flag pid, fun i side => ?_⟩
    cases side with
    | prod => exact fun inside => by cases inside
    | cons => exact fun inside => by cases inside
  · intro i j g g' b l other guar placed
    exact placed.stable guar other
  · intro g p i c allowed _ tracks outside
    simp only [fewPerCall, Bool.and_eq_true] at allowed
    exact ⟨g, .refl fl i g, tracks, call_placed tracks allowed.1.1 outside⟩
  · intro g p i l allowed _ tracks placed
    simp only [fewPerCall, Bool.and_eq_true, fewMoves, decide_eq_true_eq] at allowed
    apply access_placed tracks fits _ placed
    intro side
    rw [tracks.log_eq]
    cases side with
    | prod => exact allowed.1.2
    | cons => exact allowed.2

end Dmm.Ring.Nshmem
