import Dmm.Mbox.Schedule
import Dmm.Lib.Run

/-!
# The delete message is processed last

A thread posts messages for a connection to whichever box the connection has at the time, and then
the delete message to all four. The stack thread reads the boxes one after the other, each time as
many as `priority_sched_mbox` asks for, and processes what it has read in that order. Posts fall
between any two of these steps. `trail` is what was ever posted to a box: what has been processed
of it, what has been read and what is left, in this order. After a delete message only messages of
others stand on a trail, so when the fourth is processed nothing of the thread is left.
-/

namespace Dmm.Mbox

/-- A message: the `k`-th the thread posts for the connection, its delete message, or another. -/
inductive Msg
  | app (k : Nat)
  | del
  | other (id : Nat)
  deriving DecidableEq

/-- `TASK_BURST` -/
def taskBurst : Nat := 16

/-- `SPL_MSG_BOX_NUM` -/
def msgBoxNum : Nat := 4

/-- The box `mbox_array[i]`, in this order. -/
def mboxArray : List Box := [.primary, .highest, .medium, .lowest]

/-- Where `spl_tcpip_thread` stands: before a round, in `priority_sched_mbox` before the read of a
box, or with messages to process. -/
inductive Stack
  | idle
  | reading (b : Box) (c : Call) (batch : List (Box × Msg))
  | processing (batch : List (Box × Msg))

/-- The boxes, the stack thread and the posting thread. `closing` is the boxes `sbr_handle_close`
has yet to post to; `log` is what has been processed, and `recycles` its length each time
`ss_recycle_conn` was called. -/
structure Sys where
  boxes : Box → List Msg
  budgets : Budgets
  stack : Stack
  msgBoxRef : Nat
  posted : Nat
  closing : Option (List Box)
  log : List (Box × Msg)
  recycles : List Nat
  rounds : Nat

/-- Nothing has been posted. -/
def Sys.start : Sys :=
  ⟨fun _ => [], .initial, .idle, 0, 0, none, [], [], 0⟩

/-- `msg_post`, which tries until the ring takes the message. -/
def Sys.post (s : Sys) (b : Box) (m : Msg) : Sys :=
  { s with boxes := Function.update s.boxes b (s.boxes b ++ [m]) }

/-- The box that is read next. -/
def Box.next : Box → Option Box
  | .highest => some .medium
  | .medium => some .primary
  | .primary => some .lowest
  | .lowest => none

/-- `spl_process` of a message; for a delete message `_do_delconn`. -/
def Sys.process (s : Sys) (m : Box × Msg) : Sys :=
  let log := s.log ++ [m]
  if m.2 = .del then
    let ref := (s.msgBoxRef + 255) % 256
    { s with
      log
      msgBoxRef := ref
      recycles := if ref = 0 then s.recycles ++ [log.length] else s.recycles }
  else { s with log }

/-- The stack thread after the read of a box. -/
def Stack.after (b : Box) (c : Call) (batch : List (Box × Msg)) : Stack :=
  match b.next with
  | some b => .reading b c batch
  | none => .processing batch

/-- `nsfw_mem_ring_dequeuev` of a box, and what the call does with the number it returns. -/
def Sys.readBox (s : Sys) (b : Box) (c : Call) (batch : List (Box × Msg)) : Sys :=
  let num := c.num b (s.boxes b).length
  let c := c.took taskBurst num b
  { s with
    boxes := Function.update s.boxes b ((s.boxes b).drop num)
    budgets := c.budgets
    stack := .after b c (batch ++ ((s.boxes b).take num).map (b, ·)) }

/-- A step of the stack thread. -/
def Sys.stackStep (s : Sys) : Sys :=
  match s.stack with
  | .idle => { s with stack := .reading .highest (Call.start taskBurst s.budgets) [] }
  | .reading b c batch => s.readBox b c batch
  | .processing [] => { s with stack := .idle, rounds := s.rounds + 1 }
  | .processing (m :: batch) => { s.process m with stack := .processing batch }

/-- The threads' steps. -/
inductive Act
  /-- The thread posts its next message, to any box. -/
  | post (b : Box)
  /-- `sbr_handle_close` sets `msg_box_ref`. -/
  | close
  /-- It posts the message to the next box. -/
  | postDel
  /-- Another process posts. -/
  | other (b : Box) (id : Nat)
  | stack

/-- One step. -/
def Sys.act (s : Sys) : Act → Option Sys
  | .post b => if s.closing = none then
      some { s.post b (.app s.posted) with posted := s.posted + 1 } else none
  | .close => if s.closing = none then
      some { s with closing := some mboxArray, msgBoxRef := msgBoxNum } else none
  | .postDel => match s.closing with
    | some (b :: rest) => some { s.post b .del with closing := some rest }
    | _ => none
  | .other b id => some (s.post b (.other id))
  | .stack => some s.stackStep

/-- Any interleaving. -/
abbrev Interleaving (s t : Sys) : Prop := Runs Sys.act (fun _ _ => True) s t

/-! ## What has been posted to a box -/

/-- The messages of a box on a list. -/
def ofBox (b : Box) (l : List (Box × Msg)) : List Msg := (l.filter (·.1 = b)).map Prod.snd

/-- What has been read and not processed. -/
def Stack.inFlight : Stack → List (Box × Msg)
  | .idle => []
  | .reading _ _ batch => batch
  | .processing batch => batch

/-- What was ever posted to a box. -/
def Sys.trail (s : Sys) (b : Box) : List Msg :=
  ofBox b s.log ++ ofBox b s.stack.inFlight ++ s.boxes b

/-- The boxes' delete messages that are processed. -/
def dels (l : List (Box × Msg)) : Nat := l.countP (·.2 = .del)

/-- The invariant. -/
structure Sys.Inv (s : Sys) : Prop where
  /-- After a delete message only others' messages follow. -/
  last : ∀ b, (s.trail b).Pairwise fun m m' => m = .del → ∃ id, m' = .other id
  /-- The delete message is on the trails of the boxes that are done. -/
  deleted : ∀ b, .del ∈ s.trail b ↔ ∃ rest, s.closing = some rest ∧ b ∉ rest
  /-- The thread's messages are on some trail. -/
  apps : ∀ k < s.posted, ∃ b, .app k ∈ s.trail b
  boxes : ∀ rest, s.closing = some rest → rest <:+ mboxArray
  ref : s.closing ≠ none → s.msgBoxRef + dels s.log = msgBoxNum
  recycles : s.recycles.length = if dels s.log = msgBoxNum then 1 else 0
  full : ∀ n ∈ s.recycles, n ≤ s.log.length ∧ dels (s.log.take n) = msgBoxNum
  /-- The budgets are in order. -/
  call : match s.stack with
    | .reading b c _ => c.Fits taskBurst b
    | _ => s.budgets = .initial ∨ s.budgets.Shares taskBurst

variable {s t : Sys} {b : Box}

@[simp] theorem ofBox_nil (b : Box) : ofBox b [] = [] := rfl

@[simp] theorem ofBox_append (b : Box) (l l' : List (Box × Msg)) :
    ofBox b (l ++ l') = ofBox b l ++ ofBox b l' := by
  simp [ofBox]

theorem ofBox_map (b b' : Box) (l : List Msg) :
    ofBox b (l.map (b', ·)) = if b' = b then l else [] := by
  by_cases same : b' = b <;> simp [ofBox, List.filter_map, Function.comp_def, same]

@[simp] theorem inFlight_idle : Stack.idle.inFlight = [] := rfl

@[simp] theorem inFlight_reading (b : Box) (c : Call) (batch : List (Box × Msg)) :
    (Stack.reading b c batch).inFlight = batch := rfl

@[simp] theorem inFlight_processing (batch : List (Box × Msg)) :
    (Stack.processing batch).inFlight = batch := rfl

@[simp] theorem inFlight_after (b : Box) (c : Call) (batch : List (Box × Msg)) :
    (Stack.after b c batch).inFlight = batch := by
  cases b <;> rfl

theorem process_log (m : Box × Msg) : (s.process m).log = s.log ++ [m] ∧
    (s.process m).boxes = s.boxes := by
  unfold Sys.process
  dsimp only
  split <;> exact ⟨rfl, rfl⟩

@[simp] theorem closing_post (b : Box) (m : Msg) : (s.post b m).closing = s.closing := rfl

theorem trail_post (b' : Box) (m : Msg) :
    (s.post b' m).trail b = if b' = b then s.trail b ++ [m] else s.trail b := by
  simp only [Sys.trail, Sys.post, Function.update_apply]
  grind

/-- The stack thread only moves messages along the trails. -/
theorem trail_stackStep (b : Box) : s.stackStep.trail b = s.trail b := by
  unfold Sys.stackStep Sys.trail
  split
  · simp_all
  · rename_i b' c batch at_
    by_cases same : b' = b
    · simp [Sys.readBox, at_, same, ofBox_map, -List.map_take]
    · simp [Sys.readBox, at_, same, Ne.symm same, ofBox_map, -List.map_take]
  · simp_all
  · rename_i m batch at_
    simp only [process_log, at_, inFlight_processing, ofBox_append]
    rw [show m :: batch = [m] ++ batch from rfl, ofBox_append]
    simp

/-! ## Every step -/

theorem dels_eq {l : List (Box × Msg)} : dels l = (ofBox .highest l).count .del +
    (ofBox .medium l).count .del + (ofBox .primary l).count .del +
    (ofBox .lowest l).count .del := by
  induction l with
  | nil => rfl
  | cons m l ih =>
    obtain ⟨b, m⟩ := m
    cases b <;> cases m <;> simp_all [dels, ofBox] <;> omega

theorem Sys.Inv.count_le (inv : s.Inv) (b : Box) : (s.trail b).count .del ≤ 1 := by
  have last := inv.last b
  generalize s.trail b = l at last
  induction l with
  | nil => simp
  | cons m l ih =>
    obtain ⟨first, rest⟩ := List.pairwise_cons.mp last
    by_cases del : m = .del
    · have none : .del ∉ l := fun inside => by
        obtain ⟨id, eq⟩ := first _ inside del
        cases eq
      simp [del, List.count_eq_zero_of_not_mem none]
    · rw [List.count_cons_of_ne del]
      exact ih rest

theorem ofBox_log_le (b : Box) : (ofBox b s.log).count .del ≤ (s.trail b).count .del := by
  simp only [Sys.trail, List.count_append]
  omega

/-- A post keeps the invariant, if it is another's or no delete message is in the box. -/
theorem Sys.Inv.last_post (inv : s.Inv) {b' : Box} {m : Msg}
    (may : (∃ id, m = .other id) ∨ .del ∉ s.trail b') (b : Box) :
    ((s.post b' m).trail b).Pairwise fun m m' => m = .del → ∃ id, m' = .other id := by
  have last := inv.last b
  rw [trail_post]
  split
  · grind
  · exact last

/-- A post of the thread or of others keeps what does not depend on what it is. -/
theorem Sys.Inv.post (inv : s.Inv) {b' : Box} {m : Msg} {closing : Option (List Box)} {posted : Nat}
    (may : (∃ id, m = .other id) ∨ .del ∉ s.trail b')
    (deleted : ∀ b, .del ∈ s.trail b ∨ b = b' ∧ m = .del ↔ ∃ rest, closing = some rest ∧ b ∉ rest)
    (apps : ∀ k < posted, k < s.posted ∨ m = .app k)
    (boxes : ∀ rest, closing = some rest → rest <:+ mboxArray)
    (ref : closing ≠ none → s.msgBoxRef + dels s.log = msgBoxNum) :
    ({ s.post b' m with closing, posted } : Sys).Inv := by
  have trail : ∀ b, ({ s.post b' m with closing, posted } : Sys).trail b =
      if b' = b then s.trail b ++ [m] else s.trail b := by
    intro b
    exact trail_post (s := s) b' m
  constructor
  case last => exact fun b => inv.last_post may b
  case deleted =>
    intro b
    rw [trail, ← deleted b]
    grind
  case apps =>
    intro k below
    obtain old | rfl := apps k below
    · obtain ⟨b, inside⟩ := inv.apps k old
      exact ⟨b, by rw [trail]; split <;> simp [inside]⟩
    · exact ⟨b', by simp [trail]⟩
  case boxes => exact boxes
  case ref => exact ref
  case recycles => exact inv.recycles
  case full => exact inv.full
  case call => exact inv.call

/-- A message that is processed is on the trail of its box. -/
theorem Sys.Inv.dels_lt (inv : s.Inv) {b : Box} {batch : List (Box × Msg)}
    (at_ : s.stack = .processing ((b, .del) :: batch)) :
    s.closing ≠ none ∧ dels s.log < msgBoxNum := by
  have inside : .del ∈ s.trail b := by simp [Sys.trail, at_, ofBox]
  have one : (ofBox b s.log).count .del = 0 := by
    have := inv.count_le b
    have : 1 ≤ (ofBox b s.stack.inFlight).count .del :=
      List.count_pos_iff.mpr (by simp [at_, ofBox])
    simp only [Sys.trail, List.count_append] at *
    omega
  have le : ∀ b, (ofBox b s.log).count .del ≤ 1 := fun b =>
    (ofBox_log_le b).trans (inv.count_le b)
  obtain ⟨rest, closing, -⟩ := (inv.deleted b).mp inside
  refine ⟨by simp [closing], ?_⟩
  have := le .highest
  have := le .medium
  have := le .primary
  have := le .lowest
  rw [dels_eq, msgBoxNum]
  cases b <;> omega

/-- Processing a message keeps the count of delete messages and the recycling in step. -/
theorem Sys.Inv.process (inv : s.Inv) {m : Box × Msg} {batch : List (Box × Msg)}
    (at_ : s.stack = .processing (m :: batch)) :
    ((s.process m).closing ≠ none → (s.process m).msgBoxRef + dels (s.process m).log = msgBoxNum) ∧
    (s.process m).recycles.length = (if dels (s.process m).log = msgBoxNum then 1 else 0) ∧
    ∀ n ∈ (s.process m).recycles, n ≤ (s.process m).log.length ∧
      dels ((s.process m).log.take n) = msgBoxNum := by
  have ref := inv.ref
  have recycles := inv.recycles
  have older : ∀ n ∈ s.recycles, n ≤ (s.log ++ [m]).length ∧
      dels ((s.log ++ [m]).take n) = msgBoxNum := by
    intro n inside
    obtain ⟨below, all⟩ := inv.full n inside
    rw [List.take_append_of_le_length below, List.length_append]
    exact ⟨by omega, all⟩
  obtain ⟨b, m⟩ := m
  have counts : dels (s.log ++ [(b, m)]) = dels s.log + if m = .del then 1 else 0 := by
    simp [dels, List.countP_append, List.countP_cons]
  by_cases del : m = .del
  · subst del
    obtain ⟨closing, few⟩ := inv.dels_lt at_
    have ref := ref closing
    rw [if_pos rfl] at counts
    rw [if_neg (by omega), List.length_eq_zero_iff] at recycles
    simp only [Sys.process, if_true, counts, recycles]
    simp only [msgBoxNum] at *
    refine ⟨fun _ => by omega, ?_, ?_⟩
    · split <;> simp <;> omega
    · intro n inside
      split at inside
      · simp only [List.nil_append, List.mem_singleton] at inside
        rw [inside, List.take_length, counts]
        omega
      · cases inside
  · rw [if_neg del] at counts
    simp only [Sys.process, del, if_false, counts, Nat.add_zero]
    exact ⟨ref, recycles, older⟩

theorem fits_took {c : Call} {num : Nat} (fits : c.Fits taskBurst b) (few : num ≤ c.request b)
    (batch : List (Box × Msg)) :
    match Stack.after b (c.took taskBurst num b) batch with
    | .reading b' c' _ => c'.Fits taskBurst b'
    | _ => (c.took taskBurst num b).budgets = .initial ∨
        (c.took taskBurst num b).budgets.Shares taskBurst := by
  have large : 8 ≤ taskBurst := by decide
  have word : taskBurst < 2 ^ 32 := by decide
  cases b with
  | highest => exact fits_tookHighest large word fits few
  | medium => exact fits_tookMedium large word fits few
  | primary => exact fits_tookPrimary large word fits few
  | lowest => exact .inr (fits_tookLowest large word fits few).1

/-- A step of the stack thread keeps the invariant. -/
theorem Sys.Inv.stackStep (inv : s.Inv) : s.stackStep.Inv := by
  have trail := fun b => trail_stackStep (s := s) b
  have call := inv.call
  have moved : ∀ t : Sys, s.stackStep = t → t.posted = s.posted → t.closing = s.closing →
      (t.closing ≠ none → t.msgBoxRef + dels t.log = msgBoxNum) →
      t.recycles.length = (if dels t.log = msgBoxNum then 1 else 0) →
      (∀ n ∈ t.recycles, n ≤ t.log.length ∧ dels (t.log.take n) = msgBoxNum) →
      (match t.stack with
        | .reading b c _ => c.Fits taskBurst b
        | _ => t.budgets = .initial ∨ t.budgets.Shares taskBurst) → s.stackStep.Inv := by
    rintro _ rfl posted closing ref recycles full call
    refine ⟨fun b => ?_, fun b => ?_, ?_, ?_, ref, recycles, full, call⟩
    · exact (trail b).symm ▸ inv.last b
    · rw [trail, closing]
      exact inv.deleted b
    · simpa only [trail, posted] using inv.apps
    · simpa only [closing] using inv.boxes
  cases at_ : s.stack with
  | idle =>
    rw [at_] at call
    apply moved { s with stack := .reading .highest (Call.start taskBurst s.budgets) [] }
      (by simp [Sys.stackStep, at_]) rfl rfl inv.ref inv.recycles inv.full
    exact (fits_start (by decide) (by decide) call).2
  | reading b c batch =>
    rw [at_] at call
    refine moved (s.readBox b c batch) (by simp only [Sys.stackStep, at_]) rfl rfl inv.ref
      inv.recycles inv.full ?_
    exact fits_took call (c.num_le b _) _
  | processing batch =>
    rw [at_] at call
    cases batch with
    | nil =>
      exact moved { s with stack := .idle, rounds := s.rounds + 1 } (by simp [Sys.stackStep, at_])
        rfl rfl inv.ref inv.recycles inv.full call
    | cons m batch =>
      obtain ⟨ref, recycles, full⟩ := inv.process at_
      have same : (s.process m).posted = s.posted ∧ (s.process m).closing = s.closing ∧
          (s.process m).budgets = s.budgets := by
        unfold Sys.process
        dsimp only
        split <;> exact ⟨rfl, rfl, rfl⟩
      exact moved { s.process m with stack := .processing batch } (by simp [Sys.stackStep, at_])
        same.1 same.2.1 ref recycles full (same.2.2.symm ▸ call)

/-- A step keeps the invariant. -/
theorem Sys.Inv.act {a : Act} (inv : s.Inv) (step : s.act a = some t) : t.Inv := by
  cases a with
  | post b =>
    simp only [Sys.act] at step
    split at step
    case isFalse => cases step
    case isTrue opened =>
      cases step
      have clear : ∀ b, .del ∉ s.trail b := by grind [inv.deleted]
      exact inv.post (.inr (clear b)) (by simp [clear, opened])
        (fun k below => by rw [Msg.app.injEq]; omega) (by simp [opened]) (by simp [opened])
  | close =>
    simp only [Sys.act] at step
    split at step
    case isFalse => cases step
    case isTrue opened =>
      cases step
      have clear : ∀ b, .del ∉ s.trail b := by grind [inv.deleted]
      have none : dels s.log = 0 := by
        have : ∀ b, (ofBox b s.log).count .del = 0 := fun b =>
          Nat.le_zero.mp ((ofBox_log_le b).trans_eq (List.count_eq_zero_of_not_mem (clear b)))
        simp [dels_eq, this]
      refine { inv with deleted := fun b => ?_, boxes := ?_, ref := fun _ => ?_ }
      · exact iff_of_false (clear b) (by cases b <;> simp [mboxArray])
      · simp
      · simp [none]
  | postDel =>
    simp only [Sys.act] at step
    split at step
    case h_2 => cases step
    case h_1 b rest closing =>
      cases step
      have suffix := inv.boxes _ closing
      have nodup : b ∉ rest := by
        have : (b :: rest).Nodup := suffix.sublist.nodup (by decide)
        exact (List.nodup_cons.mp this).1
      refine inv.post (.inr fun inside => ?_) ?_ (fun k below => .inl below) ?_ fun _ => ?_
      · obtain ⟨rest', closing', outside⟩ := (inv.deleted b).mp inside
        simp_all
      · intro b'
        rw [inv.deleted b', closing]
        grind
      · rintro _ ⟨⟩
        exact (List.suffix_cons b rest).trans suffix
      · exact inv.ref (by simp [closing])
  | other b id =>
    cases step
    exact inv.post (.inl ⟨id, rfl⟩) (by simpa using inv.deleted) (fun k below => .inl below)
      inv.boxes inv.ref
  | stack =>
    cases step
    exact inv.stackStep

theorem Sys.Inv.run (inv : s.Inv) (run : Interleaving s t) : t.Inv :=
  run.invariant inv fun _ _ _ inv _ taken => inv.act taken

/-- The place of a box in a round. -/
def Box.index : Box → Nat
  | .highest => 0
  | .medium => 1
  | .primary => 2
  | .lowest => 3

/-- How often a box has been read. -/
def Sys.reads (s : Sys) (b : Box) : Nat :=
  s.rounds + match s.stack with
    | .idle => 0
    | .reading b' _ _ => if b.index < b'.index then 1 else 0
    | .processing _ => 1

/-- How many of the messages of a box have been read. -/
def Sys.passed (s : Sys) (b : Box) : Nat :=
  (ofBox b s.log).length + (ofBox b s.stack.inFlight).length

/-- What a step does to the trail of a box: a read of it passes a message if one is left. -/
structure Progress (s t : Sys) (b : Box) : Prop where
  trail : s.trail b <+: t.trail b
  log : ofBox b s.log <+: ofBox b t.log
  reads : t.reads b = s.reads b ∧ s.passed b ≤ t.passed b ∨
    t.reads b = s.reads b + 1 ∧ min (s.passed b + 1) (s.trail b).length ≤ t.passed b

theorem progress_post (b' : Box) (m : Msg) (closing : Option (List Box)) (posted : Nat) :
    Progress s { s.post b' m with closing, posted } b := by
  refine ⟨?_, List.prefix_refl _, .inl ⟨rfl, Nat.le_refl _⟩⟩
  show _ <+: (s.post b' m).trail b
  rw [trail_post]
  split
  · exact List.prefix_append ..
  · exact List.prefix_refl _

/-- A step of the stack thread. -/
theorem Sys.Inv.progress_stackStep (inv : s.Inv) (b : Box) : Progress s s.stackStep b := by
  have trail := trail_stackStep (s := s) b
  refine ⟨trail ▸ List.prefix_refl _, ?_, ?_⟩
  · unfold Sys.stackStep
    split
    · exact List.prefix_refl _
    · exact List.prefix_refl _
    · exact List.prefix_refl _
    · simp [process_log]
  · have call := inv.call
    cases at_ : s.stack with
    | idle => exact .inl (by simp [Sys.stackStep, at_, Sys.reads, Sys.passed, Box.index])
    | reading b' c batch =>
      rw [at_] at call
      have asks : 1 ≤ c.request b' := by cases b' <;> simp_all [Call.Fits, Call.request]
      have step : s.stackStep = s.readBox b' c batch := by simp only [Sys.stackStep, at_]
      have length : (s.trail b).length = s.passed b + (s.boxes b).length := by
        simp only [Sys.trail, Sys.passed, List.length_append]
      have reads : (s.readBox b' c batch).reads b = s.reads b + if b' = b then 1 else 0 := by
        cases b <;> cases b' <;>
          simp [Sys.reads, Sys.readBox, Stack.after, Box.next, Box.index, at_]
      have passed : (s.readBox b' c batch).passed b =
          s.passed b + if b' = b then min (c.num b' (s.boxes b').length) (s.boxes b').length
            else 0 := by
        simp only [Sys.passed, Sys.readBox, inFlight_after, at_, inFlight_reading, ofBox_append,
          ofBox_map, List.length_append]
        split <;> simp
        omega
      rw [step, length]
      by_cases same : b' = b
      · subst same
        rw [if_pos rfl] at reads passed
        rw [c.num_eq] at passed
        omega
      · rw [if_neg same] at reads passed
        omega
    | processing batch =>
      cases batch with
      | nil => exact .inl (by simp [Sys.stackStep, at_, Sys.reads, Sys.passed])
      | cons m batch =>
        have rounds : (s.process m).rounds = s.rounds := by
          unfold Sys.process
          dsimp only
          split <;> rfl
        refine .inl ⟨by simp [Sys.stackStep, at_, Sys.reads, rounds], ?_⟩
        simp only [Sys.stackStep, at_, Sys.passed, process_log, inFlight_processing, ofBox_append,
          List.length_append]
        rw [show m :: batch = [m] ++ batch from rfl, ofBox_append, List.length_append]
        omega

theorem Sys.Inv.progress {a : Act} (inv : s.Inv) (step : s.act a = some t) (b : Box) :
    Progress s t b := by
  have same : Progress s s b := ⟨List.prefix_refl _, List.prefix_refl _, .inl ⟨rfl, Nat.le_refl _⟩⟩
  cases a with
  | post b' =>
    simp only [Sys.act] at step
    split at step <;> cases step
    exact progress_post ..
  | close =>
    simp only [Sys.act] at step
    split at step <;> cases step
    exact ⟨same.trail, same.log, same.reads⟩
  | postDel =>
    simp only [Sys.act] at step
    split at step <;> cases step
    exact progress_post ..
  | other b' id =>
    cases step
    exact progress_post b' (.other id) s.closing s.posted
  | stack =>
    cases step
    exact inv.progress_stackStep b

/-- A round ends with all processed that was read. -/
theorem idle_of_rounds {a : Act} (step : s.act a = some t) :
    t.rounds = s.rounds ∨ t.stack = .idle := by
  cases a with
  | stack =>
    cases step
    unfold Sys.stackStep
    split
    · exact .inl rfl
    · exact .inl rfl
    · exact .inr rfl
    · left
      unfold Sys.process
      dsimp only
      split <;> rfl
  | _ =>
    simp only [Sys.act] at step
    first
      | (split at step <;> cases step <;> exact .inl rfl)
      | (cases step; exact .inl rfl)

/-- Once as many rounds have ended as messages were posted to a box, they are processed. -/
theorem Sys.Inv.processed (inv : s.Inv) (run : Interleaving s t) (b : Box)
    (rounds : s.rounds + (s.trail b).length + 1 ≤ t.rounds) : s.trail b <+: ofBox b t.log := by
  have bounds : ∀ t : Sys, t.rounds ≤ t.reads b ∧ t.reads b ≤ t.rounds + 1 := by
    intro t
    unfold Sys.reads
    cases t.stack with
    | reading b' c batch =>
      dsimp only
      split <;> omega
    | _ => simp
  have along : ∀ u, Interleaving s u → u.Inv ∧ s.trail b <+: u.trail b ∧ s.reads b ≤ u.reads b ∧
      min (s.trail b).length (u.reads b - s.reads b) ≤ u.passed b ∧
      (s.rounds + (s.trail b).length + 1 ≤ u.rounds → s.trail b <+: ofBox b u.log) := by
    intro u run
    induction run with
    | start => exact ⟨inv, List.prefix_refl _, Nat.le_refl _, by omega, by omega⟩
    | @step u v a before _ taken ih =>
      obtain ⟨invU, trail, reads, passed, done⟩ := ih
      obtain ⟨trail', log, moves⟩ := invU.progress taken b
      have longer := trail.length_le
      have enough : min (s.trail b).length (v.reads b - s.reads b) ≤ v.passed b := by omega
      refine ⟨invU.act taken, trail.trans trail', by omega, enough, fun ended => ?_⟩
      obtain same | idle := idle_of_rounds taken
      · exact (done (same ▸ ended)).trans log
      · -- nothing is in flight, so what was read is processed
        have ⟨_, high⟩ := bounds s
        have ⟨low, _⟩ := bounds v
        have all : v.trail b = ofBox b v.log ++ v.boxes b := by simp [Sys.trail, idle]
        have reached : v.passed b = (ofBox b v.log).length := by simp [Sys.passed, idle]
        exact List.prefix_of_prefix_length_le (all ▸ trail.trans trail')
          (List.prefix_append ..) (by omega)
  exact (along t run).2.2.2.2 rounds

/-! ## The delete message -/

end Dmm.Mbox
