import Dmm.EprbTree.Items
import Dmm.Lib.Run

/-!
# The timers of the stack

`spl_timers.c`: the pending timers are in a red-black tree by deadline, `ptimer.first` points to
the earliest one, and the interval timer `lazy_tim` wakes the timer thread by a signal. The thread
handles one signal or message at a time and is alone at the tree, so that each is one step here, at
one reading of the clock; `lazy_tim` expires in between.

`rb_tree.c` writes the same pointers and colours as `eprb_tree.c`: it differs in the order of
writes to different nodes and in asking for the parent of a node, not whether it is the root.

In every run the tree is in order and `first` is its first node (`Queue`), and no pending timer is
forgotten (`Awake`).
-/

namespace Dmm.Ptimer

open RedBlack EprbTree

variable {α : Type} [DecidableEq α]

/-- A `struct ptimer_node` without its tree node, for a time that is not zero. Deadlines are in
nanoseconds and below `2^63`, where `time_after_eq` is the order of numbers. -/
structure Node where
  absNsec : Nat
  msec : ℕ+
  oneshot : Bool
  enqueued : Bool
  deriving DecidableEq, Repr

/-- `ptimer` with the nodes, when `lazy_tim` expires if it is armed, and whether its signal is
pending. -/
structure Base (α : Type) where
  active : Heap α
  first : Option α
  nodes : α → Node
  lazyTim : Option Nat
  signal : Bool

/-- `tmo->abs_nsec` -/
def Base.deadline (s : Base α) (tmo : α) : Nat := (s.nodes tmo).absNsec

/-- A write to a node. -/
def Base.set (s : Base α) (tmo : α) (node : Node) : Base α :=
  { s with nodes := Function.update s.nodes tmo node }

/-- A write to `tmo->state`. -/
def Base.mark (s : Base α) (tmo : α) (enqueued : Bool) : Base α :=
  s.set tmo { s.nodes tmo with enqueued }

/-- The last loop of `rb_next`. -/
def climb (h : Heap α) : Nat → α → Option (Option α)
  | 0, _ => none
  | rounds + 1, node =>
    match h.parent node with
    | none => some none
    | some parent =>
      if h.child .right parent = some node then climb h rounds parent else some (some parent)

/-- `rb_next` -/
def rbNext (rounds : Nat) (node : α) (h : Heap α) : Option (Option α) :=
  if h.parent node = some node then some none
  else
    match h.child .right node with
    | some right => (leftmost rounds right h).map some
    | none => climb h rounds node

/-- `remove_ptimer` -/
def removePtimer (rounds : Nat) (tmo : α) (s : Base α) : Option (Base α) :=
  if (s.nodes tmo).enqueued then do
    let first ← (if s.first = some tmo then rbNext rounds tmo s.active else some s.first)
    let active ← EprbTree.erase rounds tmo s.active
    return { s.mark tmo false with active, first }
  else some s

/-- The loop of `enqueue_ptimer`. -/
def place (abs : α → Nat) (nsec : Nat) (h : Heap α) :
    Nat → Link α → Option α → (leftmost : Bool) → Option (Link α × Option α × Bool)
  | 0, _, _, _ => none
  | rounds + 1, linknode, parent, leftmost =>
    match linknode.load h with
    | none => some (linknode, parent, leftmost)
    | some entry =>
      if abs entry ≥ nsec then place abs nsec h rounds (.child .left entry) entry leftmost
      else place abs nsec h rounds (.child .right entry) entry false

/-- `enqueue_ptimer` -/
def enqueuePtimer (rounds : Nat) (tmo : α) (s : Base α) : Option (Base α) :=
  if (s.nodes tmo).enqueued then some s
  else do
    let (linknode, parent, leftmost) ←
      place s.deadline (s.deadline tmo) s.active rounds .root none true
    let active ← insertColor rounds tmo (linkNode tmo parent linknode s.active)
    return { s.mark tmo true with active, first := if leftmost then some tmo else s.first }

/-- `launch_tmr` of `lazy_tim`; `timer_settime` disarms it when the time is zero. -/
def launchTmr (now nsec : Nat) (s : Base α) : Base α :=
  { s with lazyTim := if nsec = 0 then none else some (now + nsec) }

/-- `tmo->info.msec * NANO_PER_MICROSECOND` -/
def Node.period (node : Node) : Nat := node.msec * 1000000

theorem Node.period_pos (node : Node) : 0 < node.period := by
  have positive := node.msec.pos
  unfold period
  omega

/-- `add_ptimer` -/
def addPtimer (rounds now : Nat) (tmo : α) (s : Base α) : Option (Base α) := do
  let s ← enqueuePtimer rounds tmo s
  return if s.first = some tmo then launchTmr now (s.nodes tmo).period s else s

/-- The new deadline of a timer and `add_ptimer`, for a message and for a periodic timer that
expired. -/
def schedule (rounds now : Nat) (tmo : α) (s : Base α) : Option (Base α) :=
  addPtimer rounds now tmo
    (s.set tmo { s.nodes tmo with absNsec := now + (s.nodes tmo).period })

/-- What `deal_timeout_sig` does with an expired timer, up to its message. -/
def fire (rounds now : Nat) (tmo : α) (s : Base α) : Option (Base α) := do
  let s ← removePtimer rounds tmo s
  if (s.nodes tmo).oneshot then return s else schedule rounds now tmo s

/-- The loop of `deal_timeout_sig` and the launch after it, before which the source asks once more
whether the first timer is due; the timers a message is sent for. -/
def expire (rounds now : Nat) : Nat → α → Base α → Option (List α × Base α)
  | 0, _, _ => none
  | fuel + 1, tmo, s =>
    if now ≥ s.deadline tmo then do
      let s ← fire rounds now tmo s
      match s.first with
      | none => return ([tmo], s)
      | some next =>
        let (fired, s) ← expire rounds now fuel next s
        return (tmo :: fired, s)
    else some ([], launchTmr now (s.deadline tmo - now) s)

/-- `deal_timeout_sig` -/
def dealTimeoutSig (rounds now : Nat) (s : Base α) : Option (List α × Base α) :=
  match s.first with
  | none => some ([], s)
  | some tmo => expire rounds now rounds tmo s

/-- A step of the timer thread, or of the interval timer. -/
inductive Event (α : Type)
  /-- A `SYS_PTIMEROUT_MSG` of `sys_timeout`, with the node it made. -/
  | add (now : Nat) (tmo : α) (msec : ℕ+) (oneshot : Bool)
  /-- A `SYS_UNPTIMEROUT_MSG`. -/
  | del (tmo : α)
  /-- `lazy_tim` expires. -/
  | tick
  /-- The signal, in `timeout_sigaction`. -/
  | signal (now : Nat)

/-- A new node is not one of a pending timer; only what is armed expires, and only a pending signal
is taken. -/
def Allowed (s : Base α) : Event α → Prop
  | .add _ tmo _ _ => (s.nodes tmo).enqueued = false
  | .del _ => True
  | .tick => s.lazyTim.isSome
  | .signal _ => s.signal = true

instance (s : Base α) : (e : Event α) → Decidable (Allowed s e)
  | .add .. => inferInstanceAs (Decidable (_ = false))
  | .del _ => isTrue trivial
  | .tick => inferInstanceAs (Decidable (_ = true))
  | .signal _ => inferInstanceAs (Decidable (_ = true))

/-- A step. -/
def step (rounds : Nat) (s : Base α) : Event α → Option (Base α)
  | .add now tmo msec oneshot => schedule rounds now tmo (s.set tmo ⟨0, msec, oneshot, false⟩)
  | .del tmo => removePtimer rounds tmo s
  | .tick => some { s with lazyTim := none, signal := true }
  | .signal now => (dealTimeoutSig rounds now { s with signal := false }).map Prod.snd

/-- `init_ptimer` -/
def init (active : Heap α) (nodes : α → Node) : Base α :=
  ⟨active.setRoot none, none, nodes, none, false⟩

/-! ## The tree in order -/

/-- The pending timers are the nodes of a red-black tree in the order of their deadlines, and
`first` is the first of them. -/
structure Queue (s : Base α) (t : RbTree α) : Prop where
  holds : Holds s.active t
  valid : t.Valid
  sorted : t.items.Pairwise (s.deadline · ≤ s.deadline ·)
  first : s.first = t.items.head?
  pending : ∀ x, (s.nodes x).enqueued = true ↔ x ∈ t.items

/-- The thread is woken for the earliest pending timer, if there is one. -/
def Awake (s : Base α) : Prop :=
  ∀ x, s.first = some x → s.signal = true ∨ ∃ time, s.lazyTim = some time ∧ time ≤ s.deadline x

variable {h : Heap α} {path : List (Frame α)} {s : Base α} {t : RbTree α} {tmo : α}
  {rounds now : Nat}

/-- From a subtree, the last loop of `rb_next` goes to the first node after it. -/
theorem climb_eq {x : α} (focus : Focus h path t) (full : t.top = some x)
    (enough : path.length < rounds) : climb h rounds x = some (after path).head? := by
  induction path generalizing t x rounds with
  | nil =>
    obtain ⟨rounds, rfl⟩ := Nat.exists_eq_add_of_lt enough
    have parent : h.parent x = none := (focus.top full).2.1
    rw [climb, parent]
    rfl
  | cons f path ih =>
    obtain ⟨rounds, rfl⟩ : ∃ n, rounds = n + 1 := ⟨rounds - 1, by omega⟩
    have parent : h.parent x = some f.item := (focus.top full).2.1
    obtain ⟨-, -, near, far⟩ := focus.frame
    have other := focus.sibling_ne full
    have upper : Focus h path (f.attach t) := focus
    rw [climb, parent]
    obtain ⟨side, c, y, sibling⟩ := f
    cases side with
    | left =>
      have away : h.child .right y ≠ some x := fun same => other (far.symm.trans same)
      exact if_neg away
    | right =>
      exact (if_pos (near.trans full)).trans (ih upper (top_join ..) (by simpa using enough))

/-- `rb_next` gives the next item. -/
theorem rbNext_eq {c : Color} {l r : RbTree α} {x : α} (focus : Focus h path (.node c l x r))
    (enough : (plug path (.node c l x r)).items.length < rounds) :
    rbNext rounds x h = some (r.items ++ after path).head? := by
  obtain ⟨-, parent, -, far, -, below⟩ := focus.sub
  have size := length_path_le path (.node c l x r)
  simp only [RbTree.items, List.length_append, List.length_cons] at size
  have apart : h.parent x ≠ some x := by
    rw [parent]
    cases path with
    | nil => simp [parentAt]
    | cons f path =>
      intro same
      refine (List.nodup_append.mp focus.apart).2.2 x ?_ x (by simp [RbTree.items]) rfl
      simp [around, ← Option.some.inj same]
  rw [rbNext, if_neg apart, far]
  cases full : r.top with
  | none =>
    obtain rfl := RbTree.top_eq_none.mp full
    exact climb_eq focus rfl (by omega)
  | some right =>
    have found := leftmost_eq below full (show r.items.length ≤ rounds by omega)
    cases shape : r.items with
    | nil => exact absurd (RbTree.top_mem full) (by simp [shape])
    | cons y rest => simp [found, shape]

omit [DecidableEq α] in
/-- The loop of `enqueue_ptimer` ends behind the earlier timers and before all others, and
`leftmost` says whether there are earlier ones. -/
theorem place_spec {abs : α → Nat} {nsec : Nat} (focus : Focus h path t)
    (sorted : t.items.Pairwise (abs · ≤ abs ·)) (earlier : ∀ x ∈ before path, abs x < nsec)
    (later : ∀ x ∈ after path, nsec ≤ abs x) (enough : t.items.length < rounds) :
    ∃ low, place abs nsec h rounds (linkAt path) (parentAt none path) (before path).isEmpty =
        some (linkAt low, parentAt none low, (before low).isEmpty) ∧ plug low .nil = plug path t ∧
      (∀ x ∈ before low, abs x < nsec) ∧ ∀ x ∈ after low, nsec ≤ abs x := by
  have load := load_linkAt focus
  induction t generalizing path rounds with
  | nil =>
    obtain ⟨rounds, rfl⟩ := Nat.exists_eq_add_of_lt enough
    refine ⟨path, ?_, rfl, earlier, later⟩
    rw [place, load]
    rfl
  | node c l x r left right =>
    simp only [RbTree.items, List.length_append, List.length_cons] at enough
    obtain ⟨rounds, rfl⟩ : ∃ n, rounds = n + 1 := ⟨rounds - 1, by omega⟩
    obtain ⟨first, rest, across⟩ := List.pairwise_append.mp sorted
    obtain ⟨beyond, second⟩ := List.pairwise_cons.mp rest
    rw [place, load]
    dsimp only [RbTree.top]
    by_cases up : abs x ≥ nsec
    · rw [if_pos up]
      have next : Focus h (⟨.left, c, x, r⟩ :: path) l := focus
      refine left next first earlier ?_ (by omega) (load_linkAt next)
      simp only [after, List.cons_append, List.mem_cons, List.mem_append]
      rintro y (rfl | inside | outside)
      · exact up
      · exact up.trans (beyond y inside)
      · exact later y outside
    · rw [if_neg up]
      have next : Focus h (⟨.right, c, x, l⟩ :: path) r := focus
      have turned : (before (⟨.right, c, x, l⟩ :: path)).isEmpty = false := by simp [before]
      rw [← turned]
      refine right next second ?_ later (by omega) (load_linkAt next)
      simp only [before, List.mem_append, List.mem_singleton]
      rintro y (outside | inside | rfl)
      · exact earlier y outside
      · exact (across y inside x List.mem_cons_self).trans_lt (not_le.mp up)
      · exact not_le.mp up

/-- A node linked in at the end of a path, and the tree balanced again. -/
theorem insertColor_link {low : List (Frame α)} (holds : Holds h (plug low .nil))
    (valid : (plug low .nil).Valid) (fresh : tmo ∉ (plug low .nil).items)
    (enough : (plug low .nil).items.length < rounds) :
    ∃ h' t', insertColor rounds tmo (linkNode tmo (parentAt none low) (linkAt low) h) = some h' ∧
      Holds h' t' ∧ t'.Valid ∧ t'.items = before low ++ tmo :: after low := by
  have focus := linkNode_focus holds (x := tmo) fun here =>
    fresh ((items_plug_perm ..).mem_iff.mpr (List.mem_append_left _ here))
  obtain ⟨n, balanced, fits, -⟩ := valid_plug.mp valid
  have leaf : (RbTree.node .red .nil tmo .nil).Balanced n := ⟨rfl, rfl, balanced, balanced⟩
  have size := length_path_le low (.nil : RbTree α)
  obtain ⟨h', ran, holds'⟩ :=
    insertColor_holds focus rfl rfl fits (show low.length < rounds by omega)
  refine ⟨h', _, ran, holds', valid_insertColor leaf rfl fits, ?_⟩
  rw [RbTree.items_paint, items_insertColor, items_plug]
  rfl

/-! ## Steps -/

@[simp]
theorem Base.deadline_mark (b : Bool) : (s.mark tmo b).deadline = s.deadline := by
  funext x
  by_cases here : x = tmo
  · subst here
    simp [deadline, mark, set]
  · simp [deadline, mark, set, here]

namespace Queue

omit [DecidableEq α] in
/-- `first` is an earliest timer. -/
theorem earliest {x : α} (queue : Queue s t) (member : x ∈ t.items) :
    ∃ y, s.first = some y ∧ s.deadline y ≤ s.deadline x := by
  have sorted := queue.sorted
  rw [queue.first]
  cases shape : t.items with
  | nil => simp [shape] at member
  | cons y rest =>
    rw [shape] at member sorted
    refine ⟨y, rfl, ?_⟩
    rcases List.mem_cons.mp member with rfl | member
    · exact le_rfl
    · exact (List.pairwise_cons.mp sorted).1 x member

/-- A write to a node that is not pending. -/
theorem set (queue : Queue s t) (idle : tmo ∉ t.items) {node : Node}
    (off : node.enqueued = false) : Queue (s.set tmo node) t := by
  have kept (x : α) (member : x ∈ t.items) : (s.set tmo node).nodes x = s.nodes x :=
    Function.update_of_ne (ne_of_mem_of_not_mem member idle) _ _
  refine ⟨queue.holds, queue.valid, queue.sorted.imp_of_mem fun {x y} left right order => ?_,
    queue.first, fun x => ?_⟩
  · rwa [Base.deadline, Base.deadline, kept x left, kept y right]
  · by_cases here : x = tmo
    · subst here
      simp [Base.set, off, idle]
    · simpa [Base.set, here] using queue.pending x

/-- `enqueue_ptimer` of a timer that is not pending. -/
theorem enqueue (queue : Queue s t) (idle : tmo ∉ t.items) (enough : t.items.length < rounds) :
    ∃ active first t' l r,
      enqueuePtimer rounds tmo s = some { s.mark tmo true with active, first } ∧
      Queue { s.mark tmo true with active, first } t' ∧ t.items = l ++ r ∧
      t'.items = l ++ tmo :: r := by
  have whole : Focus s.active [] t := queue.holds
  obtain ⟨low, placed, rfl, earlier, later⟩ :=
    @place_spec _ _ _ _ _ _ (s.deadline tmo) whole queue.sorted nofun nofun enough
  obtain ⟨active, t', ran, holds, valid, items⟩ :=
    insertColor_link queue.holds queue.valid idle enough
  have listed : (plug low .nil).items = before low ++ after low := items_plug low .nil
  have off : (s.nodes tmo).enqueued = false := by simpa [idle] using queue.pending tmo
  refine ⟨active, if (before low).isEmpty then some tmo else s.first, t', before low, after low, ?_,
    ⟨holds, valid, ?_, ?_, fun x => ?_⟩, listed, items⟩
  · have placed : place s.deadline (s.deadline tmo) s.active rounds .root none true = _ := placed
    simp [enqueuePtimer, off, placed, ran]
  · have sorted := queue.sorted
    rw [listed] at sorted
    obtain ⟨first, second, across⟩ := List.pairwise_append.mp sorted
    show t'.items.Pairwise ((s.mark tmo true).deadline · ≤ (s.mark tmo true).deadline ·)
    rw [items, Base.deadline_mark, List.pairwise_append, List.pairwise_cons]
    refine ⟨first, ⟨later, second⟩, fun x before y after => ?_⟩
    rcases List.mem_cons.mp after with rfl | after
    · exact (earlier x before).le
    · exact across x before y after
  · rw [items]
    cases shape : before low with
    | nil => rfl
    | cons x rest => simp [queue.first, listed, shape]
  · have here := queue.pending x
    rw [listed] at here
    by_cases same : x = tmo
    · simp [items, same, Base.mark, Base.set]
    · simpa [items, same, Base.mark, Base.set] using here

/-- `remove_ptimer` of a pending timer. -/
theorem remove (queue : Queue s t) (member : tmo ∈ t.items) (enough : t.items.length + 1 < rounds) :
    ∃ active first t', removePtimer rounds tmo s = some { s.mark tmo false with active, first } ∧
      Queue { s.mark tmo false with active, first } t' ∧ t'.items = t.items.erase tmo := by
  have nodup := queue.holds.nodup
  obtain ⟨path, c, l, r, rfl⟩ := exists_path member
  obtain ⟨active, ran, holds⟩ := erase_holds queue.holds queue.valid enough
  have next := rbNext_eq queue.holds (Nat.lt_of_succ_lt enough)
  have listed : (plug path (.node c l tmo r)).items =
      (before path ++ l.items) ++ tmo :: (r.items ++ after path) := by
    simp [items_plug, RbTree.items]
  have on := (queue.pending tmo).mpr member
  have first := queue.first
  rw [listed] at nodup first
  have earlier : tmo ∉ before path ++ l.items := fun here =>
    (List.nodup_append.mp nodup).2.2 tmo here tmo List.mem_cons_self rfl
  have items : (RedBlack.erase path c l r).items =
      (plug path (.node c l tmo r)).items.erase tmo := by
    rw [items_erase, listed, List.erase_append_right _ earlier, List.erase_cons_head]
    simp
  refine ⟨active, (RedBlack.erase path c l r).items.head?, _, ?_,
    ⟨holds, valid_erase queue.valid, ?_, rfl, fun x => ?_⟩, items⟩
  · have moved : (if s.first = some tmo then rbNext rounds tmo s.active else some s.first) =
        some (RedBlack.erase path c l r).items.head? := by
      rw [items_erase]
      cases shape : before path ++ l.items with
      | nil =>
        have here : s.first = some tmo := by rw [first, shape, List.nil_append, List.head?_cons]
        rw [if_pos here, next]
        simp [← List.append_assoc, shape]
      | cons x rest =>
        rw [shape] at earlier first
        have away : s.first ≠ some tmo := fun same =>
          earlier (Option.some.inj (first.symm.trans same) ▸ List.mem_cons_self)
        rw [if_neg away, first]
        simp [← List.append_assoc, shape]
    rw [removePtimer, if_pos on, moved]
    simp [ran]
  · show List.Pairwise ((s.mark tmo false).deadline · ≤ (s.mark tmo false).deadline ·) _
    rw [items, Base.deadline_mark]
    exact queue.sorted.sublist List.erase_sublist
  · rw [items, queue.holds.nodup.mem_erase_iff]
    by_cases same : x = tmo
    · simp [same, Base.mark, Base.set]
    · simpa [same, Base.mark, Base.set] using queue.pending x

omit [DecidableEq α] in
/-- Only what wakes the thread has changed. -/
theorem wake (queue : Queue s t) (lazyTim : Option Nat) (signal : Bool) :
    Queue { s with lazyTim, signal } t :=
  ⟨queue.holds, queue.valid, queue.sorted, queue.first, queue.pending⟩

/-- A timer that is not pending gets a new deadline and is pending; `lazy_tim` is armed for it when
it is the earliest. -/
theorem scheduled (queue : Queue s t) (idle : tmo ∉ t.items) (enough : t.items.length < rounds)
    (now : Nat) :
    ∃ s' t' l r, schedule rounds now tmo s = some s' ∧ Queue s' t' ∧ t.items = l ++ r ∧
      t'.items = l ++ tmo :: r ∧ (Awake s → Awake s') ∧ s'.nodes = Function.update s.nodes tmo
        { s.nodes tmo with absNsec := now + (s.nodes tmo).period, enqueued := true } := by
  have off : (s.nodes tmo).enqueued = false := by simpa [idle] using queue.pending tmo
  set node : Node := { s.nodes tmo with absNsec := now + (s.nodes tmo).period } with new
  obtain ⟨active, first, t', l, r, ran, queue', before, after⟩ :=
    (show Queue (s.set tmo node) t from queue.set idle off).enqueue idle enough
  set s₁ : Base α := { (s.set tmo node).mark tmo true with active, first } with marked
  have nodes : s₁.nodes = Function.update s.nodes tmo { node with enqueued := true } := by
    simp [marked, Base.mark, Base.set]
  have added : schedule rounds now tmo s =
      some (if first = some tmo then launchTmr now (s₁.nodes tmo).period s₁ else s₁) := by
    simp [schedule, addPtimer, ← new, ran, marked]
  by_cases earliest : first = some tmo
  · rw [if_pos earliest] at added
    refine ⟨_, t', l, r, added, queue'.wake .., before, after, fun _ x least => .inr ?_, nodes⟩
    obtain rfl : tmo = x := Option.some.inj (earliest.symm.trans least)
    refine ⟨_, if_neg (s₁.nodes tmo).period_pos.ne', ?_⟩
    simp [Base.deadline, launchTmr, nodes, Node.period, new]
  · rw [if_neg earliest] at added
    refine ⟨_, t', l, r, added, queue', before, after, fun awake x least => ?_, nodes⟩
    have listed : some x = t'.items.head? := least.symm.trans queue'.first
    rw [after] at listed
    cases l with
    | nil => exact absurd (least.trans listed) earliest
    | cons y l =>
      obtain rfl : x = y := Option.some.inj listed
      have away : x ≠ tmo := ne_of_mem_of_not_mem (by simp [before]) idle
      have same : s₁.deadline x = s.deadline x := by simp [Base.deadline, nodes, away]
      rw [same]
      exact awake x (by simp [queue.first, before])

end Queue

/-- What a signal does to a timer. -/
def Node.expired (now : Nat) (node : Node) : Node :=
  if node.enqueued ∧ node.absNsec ≤ now then
    if node.oneshot then { node with enqueued := false }
    else { node with absNsec := now + node.period }
  else node

/-- A timer expires once. -/
theorem Node.expired_expired (node : Node) (now : Nat) :
    (node.expired now).expired now = node.expired now := by
  unfold expired
  split_ifs <;> simp_all [period]

namespace Queue

omit [DecidableEq α] in
/-- Only a pending timer expires. -/
theorem expired_eq (queue : Queue s t) (empty : t.items = []) (x : α) (now : Nat) :
    (s.nodes x).expired now = s.nodes x := by
  have off : ¬ (s.nodes x).enqueued = true := by simp [queue.pending, empty]
  simp [Node.expired, off]

/-- An expired timer, the earliest one. -/
theorem fired {rest : List α} (queue : Queue s t) (items : t.items = tmo :: rest)
    (due : s.deadline tmo ≤ now) (enough : t.items.length + 1 < rounds) :
    ∃ s' t', fire rounds now tmo s = some s' ∧ Queue s' t' ∧
      s'.nodes = Function.update s.nodes tmo ((s.nodes tmo).expired now) ∧
      t'.items.filter (s'.deadline · ≤ now) = rest.filter (s.deadline · ≤ now) := by
  have member : tmo ∈ t.items := by simp [items]
  have on := (queue.pending tmo).mpr member
  have spent : (s.nodes tmo).expired now = if (s.nodes tmo).oneshot then
      { s.nodes tmo with enqueued := false }
      else { s.nodes tmo with absNsec := now + (s.nodes tmo).period } :=
    if_pos ⟨on, due⟩
  have alone : tmo ∉ rest := (List.nodup_cons.mp (items ▸ queue.holds.nodup)).1
  obtain ⟨active, first, t₁, removed, queue₁, left⟩ := queue.remove member enough
  rw [items, List.erase_cons_head] at left
  set s₁ : Base α := { s.mark tmo false with active, first } with marked
  have here : s₁.nodes tmo = { s.nodes tmo with enqueued := false } := Function.update_self ..
  have kept (x : α) (inside : x ∈ rest) : s₁.nodes x = s.nodes x :=
    Function.update_of_ne (ne_of_mem_of_not_mem inside alone) _ _
  cases once : (s.nodes tmo).oneshot with
  | true =>
    refine ⟨s₁, t₁, ?_, queue₁, ?_, ?_⟩
    · simp [fire, removed, here, once]
    · rw [spent, if_pos once]
      rfl
    · rw [left]
      exact List.filter_congr fun x inside => by rw [Base.deadline, kept x inside]; rfl
  | false =>
    have short : t₁.items.length < rounds := by
      rw [items, List.length_cons] at enough
      rw [left]
      omega
    obtain ⟨s₂, t₂, l, r, ran, queue₂, before, after, -, nodes⟩ :=
      queue₁.scheduled (left ▸ alone) short now
    refine ⟨s₂, t₂, ?_, queue₂, ?_, ?_⟩
    · simp [fire, removed, here, once, ran]
    · rw [nodes, here, spent]
      simp [marked, Base.mark, Base.set, once, on, Node.period]
    · have later : ¬ s₂.deadline tmo ≤ now := by
        simp [Base.deadline, nodes, (s₁.nodes tmo).period_pos.ne']
      rw [after, List.filter_append, List.filter_cons_of_neg (by simpa using later),
        ← List.filter_append, ← before, left]
      refine List.filter_congr fun x inside => ?_
      have away : x ≠ tmo := ne_of_mem_of_not_mem inside alone
      rw [Base.deadline, nodes, Function.update_of_ne away, kept x inside, Base.deadline]

section

variable [Fintype α] (enough : Fintype.card α + 1 < rounds)
include enough

omit [DecidableEq α] in
/-- There are rounds enough for every node. -/
theorem room (queue : Queue s t) : t.items.length + 1 < rounds :=
  (Nat.succ_le_succ queue.holds.nodup.length_le_card).trans_lt enough

/-- The loop of `deal_timeout_sig` handles the timers that are due, in the order of the tree. -/
theorem expired {fuel : Nat} (queue : Queue s t) (first : s.first = some tmo)
    (fits : (t.items.filter (s.deadline · ≤ now)).length < fuel) :
    ∃ s' t', expire rounds now fuel tmo s = some (t.items.filter (s.deadline · ≤ now), s') ∧
      Queue s' t' ∧ Awake s' ∧ ∀ x, s'.nodes x = (s.nodes x).expired now := by
  induction fuel generalizing s t tmo with
  | zero => cases fits
  | succ fuel ih =>
    obtain ⟨rest, items⟩ := List.head?_eq_some_iff.mp (queue.first.symm.trans first)
    by_cases due : s.deadline tmo ≤ now
    · obtain ⟨s₁, t₁, ran, queue₁, nodes, left⟩ := queue.fired items due (queue.room enough)
      have again (x : α) : (s₁.nodes x).expired now = (s.nodes x).expired now := by
        by_cases here : x = tmo
        · subst here
          simp [nodes, Node.expired_expired]
        · simp [nodes, here]
      have list : t.items.filter (s.deadline · ≤ now) =
          tmo :: t₁.items.filter (s₁.deadline · ≤ now) := by simp [items, due, left]
      rw [list] at fits ⊢
      cases next : s₁.first with
      | none =>
        have empty : t₁.items = [] := List.head?_eq_none_iff.mp (queue₁.first.symm.trans next)
        refine ⟨s₁, t₁, by simp [expire, due, ran, next, empty], queue₁, by simp [Awake, next],
          fun x => ?_⟩
        rw [← again x, queue₁.expired_eq empty]
      | some y =>
        obtain ⟨s', t', ran', queue', awake, nodes'⟩ := ih queue₁ next (by simpa using fits)
        exact ⟨s', t', by simp [expire, due, ran, next, ran'], queue', awake,
          fun x => (nodes' x).trans (again x)⟩
    · have later (x : α) (member : x ∈ t.items) : ¬ s.deadline x ≤ now := by
        obtain ⟨y, earliest, order⟩ := queue.earliest member
        obtain rfl : tmo = y := Option.some.inj (first.symm.trans earliest)
        omega
      have none : t.items.filter (s.deadline · ≤ now) = [] := by
        simpa using fun x member => not_le.mp (later x member)
      refine ⟨launchTmr now (s.deadline tmo - now) s, t, by simp [expire, due, none],
        queue.wake .., fun x least => .inr ?_, fun x => ?_⟩
      · obtain rfl : tmo = x := Option.some.inj (first.symm.trans least)
        exact ⟨_, if_neg (by omega), by simp [Base.deadline, launchTmr] at *; omega⟩
      · have early : ¬ ((s.nodes x).enqueued = true ∧ (s.nodes x).absNsec ≤ now) := fun both =>
          later x ((queue.pending x).mp both.1) both.2
        exact (if_neg early).symm

/-- `deal_timeout_sig` -/
theorem dealt (queue : Queue s t) (now : Nat) :
    ∃ s' t', dealTimeoutSig rounds now s = some (t.items.filter (s.deadline · ≤ now), s') ∧
      Queue s' t' ∧ Awake s' ∧ ∀ x, s'.nodes x = (s.nodes x).expired now := by
  unfold dealTimeoutSig
  cases first : s.first with
  | none =>
    have empty : t.items = [] := List.head?_eq_none_iff.mp (queue.first.symm.trans first)
    exact ⟨s, t, by simp [empty], queue, by simp [Awake, first], fun x =>
      (queue.expired_eq empty x now).symm⟩
  | some tmo =>
    refine queue.expired enough first ((List.length_filter_le ..).trans_lt ?_)
    exact Nat.lt_of_succ_lt (queue.room enough)

end

end Queue

/-! ## Runs -/

section

variable [Fintype α] (enough : Fintype.card α + 1 < rounds)
include enough

/-- A step keeps the tree in order and the thread awake. -/
theorem step_kept {e : Event α} (queue : Queue s t) (awake : Awake s) (allowed : Allowed s e) :
    ∃ s' t', step rounds s e = some s' ∧ Queue s' t' ∧ Awake s' := by
  cases e with
  | add now tmo msec oneshot =>
    have off : (s.nodes tmo).enqueued = false := allowed
    have idle : tmo ∉ t.items := by simp [← queue.pending, off]
    set s₀ := s.set tmo ⟨0, msec, oneshot, false⟩
    have queue₀ : Queue s₀ t := queue.set idle rfl
    have awake₀ : Awake s₀ := by
      intro x least
      have away : x ≠ tmo :=
        ne_of_mem_of_not_mem (List.mem_of_head? (queue.first.symm.trans least)) idle
      simpa [s₀, Base.deadline, Base.set, away] using awake x least
    obtain ⟨s', t', -, -, ran, queue', -, -, kept, -⟩ :=
      queue₀.scheduled idle (Nat.lt_of_succ_lt (queue.room enough)) now
    exact ⟨s', t', ran, queue', kept awake₀⟩
  | del tmo =>
    by_cases on : (s.nodes tmo).enqueued = true
    · obtain ⟨active, first, t', ran, queue', items⟩ :=
        queue.remove ((queue.pending tmo).mp on) (queue.room enough)
      refine ⟨_, t', ran, queue', fun x least => ?_⟩
      have inside : x ∈ t.items := List.mem_of_mem_erase
        (items ▸ List.mem_of_head? (queue'.first.symm.trans least))
      obtain ⟨y, earliest, order⟩ := queue.earliest inside
      refine (awake y earliest).imp_right fun ⟨time, armed, before⟩ => ?_
      refine ⟨time, armed, before.trans ?_⟩
      show s.deadline y ≤ (s.mark tmo false).deadline x
      rwa [Base.deadline_mark]
    · exact ⟨s, t, by simp [step, removePtimer, on], queue, awake⟩
  | tick => exact ⟨_, t, rfl, queue.wake .., fun _ _ => .inl rfl⟩
  | signal now =>
    obtain ⟨s', t', ran, queue', awake', -⟩ := (queue.wake s.lazyTim false).dealt enough now
    exact ⟨s', t', by simp [step, ran], queue', awake'⟩

variable {active : Heap α} {nodes : α → Node} (idle : ∀ x, (nodes x).enqueued = false)
  (run : Runs (step rounds) Allowed (init active nodes) s)
include idle run

/-- A run keeps the tree in order and the thread awake. -/
theorem run_kept : ∃ t, Queue s t ∧ Awake s := by
  refine run.invariant (P := fun s => ∃ t, Queue s t ∧ Awake s) ?_ ?_
  · refine ⟨.nil, ⟨⟨trivial, rfl, List.nodup_nil⟩, ⟨rfl, 0, rfl⟩, .nil, rfl, ?_⟩, nofun⟩
    simp [init, idle, RbTree.items]
  · rintro s e u ⟨t, queue, awake⟩ allowed taken
    obtain ⟨s', t', ran, kept⟩ := step_kept enough queue awake allowed
    obtain rfl := Option.some.inj (ran.symm.trans taken)
    exact ⟨t', kept⟩

/-- In every order of messages, expiries of `lazy_tim` and signals, each step returns, and while a
timer is pending `first` is an earliest one, for which the signal is pending or `lazy_tim` is armed
in time. -/
theorem pending_timers_awake :
    (∀ e, Allowed s e → ∃ s', step rounds s e = some s') ∧
      ∀ x, (s.nodes x).enqueued = true → ∃ y, s.first = some y ∧ (s.nodes y).enqueued = true ∧
        s.deadline y ≤ s.deadline x ∧
        (s.signal = true ∨ ∃ time, s.lazyTim = some time ∧ time ≤ s.deadline y) := by
  obtain ⟨t, queue, awake⟩ := run_kept enough idle run
  refine ⟨fun e allowed => ?_, fun x on => ?_⟩
  · obtain ⟨s', -, ran, -⟩ := step_kept enough queue awake allowed
    exact ⟨s', ran⟩
  · obtain ⟨y, first, order⟩ := queue.earliest ((queue.pending x).mp on)
    refine ⟨y, first, (queue.pending y).mpr ?_, order, awake y first⟩
    exact List.mem_of_head? (queue.first.symm.trans first)

/-- In every run, a signal sends a message for exactly the pending timers that are due, each once
and the earliest first; then the periodic ones are pending for a period from now, the others of
them no longer, and no other timer has changed. -/
theorem signal_expires_due (now : Nat) :
    ∃ fired s', dealTimeoutSig rounds now s = some (fired, s') ∧ fired.Nodup ∧
      fired.Pairwise (s.deadline · ≤ s.deadline ·) ∧
      (∀ x, x ∈ fired ↔ (s.nodes x).enqueued = true ∧ s.deadline x ≤ now) ∧
      ∀ x, s'.nodes x = (s.nodes x).expired now := by
  obtain ⟨t, queue, -⟩ := run_kept enough idle run
  obtain ⟨s', -, ran, -, -, after⟩ := queue.dealt enough now
  refine ⟨_, s', ran, queue.holds.nodup.filter _, queue.sorted.filter _, fun x => ?_, after⟩
  simp [queue.pending]

end

/-- Three nodes and an empty tree. -/
def start : Base (Fin 3) :=
  init ⟨fun _ => .black, fun _ => none, fun _ _ => none, none⟩ fun _ => ⟨0, 1, true, false⟩

/-- A timer of five milliseconds and a periodic one of three are pending. -/
theorem exists_two_timers : ∃ s, Runs (step 5) Allowed start s ∧ s.signal = false ∧
    s.nodes 0 = ⟨5000000, 5, true, true⟩ ∧ s.nodes 1 = ⟨3000000, 3, false, true⟩ := by
  let both (s : Base (Fin 3)) : Bool := s.signal = false ∧
    s.nodes 0 = ⟨5000000, 5, true, true⟩ ∧ s.nodes 1 = ⟨3000000, 3, false, true⟩
  obtain ⟨s, run, test⟩ : ∃ s, Runs (step 5) Allowed start s ∧ both s = true :=
    exists_runs_of_execute (fun s e => decide (Allowed s e)) [.add 0 0 5 true, .add 0 1 3 false]
      (by simp) (by decide +kernel)
  exact ⟨s, run, by simpa [both] using test⟩

/-- The thread is woken in time for the first of two timers. -/
theorem two_timers_awake : ∃ s, Runs (step 5) Allowed start s ∧ ∃ y, s.first = some y ∧
    s.deadline y ≤ 5000000 ∧ ∃ time, s.lazyTim = some time ∧ time ≤ s.deadline y := by
  obtain ⟨s, run, silent, node, -⟩ := exists_two_timers
  have on : (s.nodes 0).enqueued = true := by rw [node]
  obtain ⟨y, first, -, order, woken⟩ :=
    (pending_timers_awake (by decide) (fun _ => rfl) run).2 0 on
  have time : s.deadline 0 = 5000000 := by rw [Base.deadline, node]
  exact ⟨s, run, y, first, time ▸ order, by simpa [silent] using woken⟩

/-- After four milliseconds the periodic one of two timers has expired. -/
theorem two_timers_expire : ∃ s fired s', Runs (step 5) Allowed start s ∧
    dealTimeoutSig 5 4000000 s = some (fired, s') ∧ 0 ∉ fired ∧ 1 ∈ fired ∧
    s'.deadline 1 = 7000000 := by
  obtain ⟨s, run, -, first, second⟩ := exists_two_timers
  obtain ⟨fired, s', ran, -, -, due, after⟩ :=
    signal_expires_due (by decide) (fun _ => rfl) run 4000000
  refine ⟨s, fired, s', run, ran, ?_, ?_, ?_⟩
  · simp [due, Base.deadline, first]
  · simp [due, Base.deadline, second]
  · simp [Base.deadline, after, second, Node.expired, Node.period]

end Dmm.Ptimer
