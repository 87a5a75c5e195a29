import Dmm.EprbTree.Erase

/-!
# Runs of the tree of epoll items

`nsep_rbtree_insert` and `ep_rb_erase` from an empty tree. What is stored is tracked beside the
memory as the list of inserted and not erased items with their fds (`Op.track`). In every run
whose operations are `Allowed`, memory holds a red-black search tree of exactly these items
(`Stores`, kept by each operation: `insert_stores`, `erase_stores`), so `nsep_find_ep` finds an
item when it is stored (`findEp_eq`) and `ep_rb_first` gives the one with the smallest fd
(`first_eq`).
-/

namespace Dmm.EprbTree

open RedBlack

variable {α : Type} [DecidableEq α] {h : Heap α} {path : List (Frame α)}

/-! ## Insertion -/

/-- The pointer that leads to the end of a path. -/
def linkAt : List (Frame α) → Link α
  | [] => .root
  | f :: _ => .child f.side f.item

omit [DecidableEq α] in
theorem load_linkAt {t : RbTree α} (focus : Focus h path t) : (linkAt path).load h = t.top := by
  cases path with
  | nil => exact focus.root
  | cons f path => exact focus.frame.2.2.1

theorem store_linkAt (h : Heap α) (path : List (Frame α)) (p : Option α) :
    (linkAt path).store h p = h.link path p := by
  cases path <;> rfl

omit [DecidableEq α] in
/-- The loop of `nsep_rbtree_insert` ends at the place of a key that is not stored. -/
theorem descend_spec {fds : α → Int} {fd : Int} {t : RbTree α} {rounds : Nat}
    (focus : Focus h path t) (search : t.Search fds) (fresh : ∀ x ∈ t.items, fds x ≠ fd)
    (smaller : ∀ x ∈ before path, fds x < fd) (greater : ∀ x ∈ after path, fd < fds x)
    (enough : t.items.length ≤ rounds) :
    ∃ low, descend fds fd h rounds (linkAt path) (parentAt none path) =
        (linkAt low, parentAt none low) ∧ plug low .nil = plug path t ∧
      (∀ x ∈ before low, fds x < fd) ∧ ∀ x ∈ after low, fd < fds x := by
  have load := load_linkAt focus
  induction t generalizing path rounds with
  | nil =>
    refine ⟨path, ?_, rfl, smaller, greater⟩
    cases rounds with
    | zero => rfl
    | succ rounds =>
      rw [descend, load]
      rfl
  | node c l x r left right =>
    obtain ⟨first, second, below, beyond⟩ := search
    simp only [RbTree.items, List.length_append, List.length_cons] at enough
    obtain ⟨rounds, rfl⟩ : ∃ n, rounds = n + 1 := ⟨rounds - 1, by omega⟩
    rw [descend, load]
    dsimp only [RbTree.top]
    by_cases up : fd > fds x
    · rw [if_pos up]
      have next : Focus h (⟨.right, c, x, l⟩ :: path) r := focus
      refine right next second (fun y member => fresh y (by simp [RbTree.items, member])) ?_ greater
        (by omega) (load_linkAt next)
      simp only [before, List.mem_append, List.mem_singleton]
      rintro y (earlier | inside | rfl)
      · exact smaller y earlier
      · exact (below y inside).trans up
      · exact up
    · rw [if_neg up]
      have down : fd < fds x := by
        have other := fresh x (by simp [RbTree.items])
        omega
      have next : Focus h (⟨.left, c, x, r⟩ :: path) l := focus
      refine left next first (fun y member => fresh y (by simp [RbTree.items, member])) smaller ?_
        (by omega) (load_linkAt next)
      simp only [after, List.cons_append, List.mem_cons, List.mem_append]
      rintro y (rfl | inside | later)
      · exact down
      · exact down.trans (beyond y inside)
      · exact greater y later

/-- `ep_rb_link_node` puts a red node at the end of the path. -/
theorem linkNode_focus {x : α} (focus : Focus h path .nil) (fresh : x ∉ around path) :
    Focus (linkNode x (parentAt none path) (linkAt path) h) path (.node .red .nil x .nil) := by
  have nodup : (around path ++ (RbTree.node .red .nil x .nil).items).Nodup := by
    have alone := focus.apart
    simp only [RbTree.items, List.append_nil, List.nil_append] at alone ⊢
    exact List.nodup_append.mpr ⟨alone, List.nodup_singleton x, fun y member z here => by
      rw [List.mem_singleton.mp here]
      rintro rfl
      exact fresh member⟩
  unfold linkNode
  simp only [store_linkAt]
  set h₁ := ((h.setParent x (parentAt none path)).setChild .right x none).setChild .left x none
  have same (y : α) (away : y ≠ x) : h.Same h₁ y :=
    (Heap.same_setParent away _).trans
      ((Heap.same_setChild away _ _).trans (Heap.same_setChild away _ _))
  refine focus.replace (fun y member => ?_) ?_ ?_ nodup
  · have away : y ≠ x := by
      rintro rfl
      exact fresh member
    exact ((same y away).link path (some x)).trans (Heap.same_setColor away .red)
  · have root : h₁.root = h.root := rfl
    exact Heap.link_root root path (some x)
  · have here := Heap.same_link (h := h₁) fresh (some x)
    refine ⟨Heap.setColor_color _ x .red, here.parent.trans ?_, (here.child _).trans ?_,
      (here.child _).trans ?_, trivial, trivial⟩
    · exact Heap.setParent_parent h x (parentAt none path)
    · exact Heap.setChild_child _ .left x none
    · refine (Heap.setChild_child_flip _ .left x none).trans ?_
      exact Heap.setChild_child _ .right x none

/-- `nsep_rbtree_insert` puts a new item in the place of its key. -/
theorem rbtreeInsert_holds {fds : α → Int} {t : RbTree α} {x : α} {rounds : Nat} (holds : Holds h t)
    (valid : t.Valid) (search : t.Search fds) (fresh : x ∉ t.items)
    (unused : ∀ y ∈ t.items, fds y ≠ fds x) (room : t.items.length ≤ maxEpitemNum)
    (enough : t.items.length < rounds) :
    ∃ h' t', rbtreeInsert rounds fds x h = some h' ∧ Holds h' t' ∧ t'.Valid ∧ t'.Search fds ∧
      t'.items.Perm (x :: t.items) := by
  have empty : Focus h [] t := holds
  obtain ⟨low, walked, shape, smaller, greater⟩ :=
    descend_spec empty search unused (by simp [before]) (by simp [after]) room
  obtain rfl : plug low .nil = t := shape
  have listed := items_plug low (.nil : RbTree α)
  have outside : x ∉ around low := by
    intro here
    apply fresh
    rw [(items_plug_perm ..).mem_iff]
    exact List.mem_append_left _ here
  have focus := linkNode_focus holds outside
  obtain ⟨n, balanced, fits, -⟩ := valid_plug.mp valid
  have leaf : (RbTree.node .red .nil x .nil).Balanced n := ⟨rfl, rfl, balanced, balanced⟩
  have short : low.length < rounds := by
    have size := length_path_le low (.nil : RbTree α)
    omega
  obtain ⟨h', ran, holds'⟩ := insertColor_holds focus rfl rfl fits short
  have items : ((RedBlack.insertColor low (.node .red .nil x .nil)).paint .black).items =
      before low ++ x :: after low := by
    rw [RbTree.items_paint, items_insertColor, items_plug]
    rfl
  refine ⟨h', _, ?_, holds', valid_insertColor leaf rfl fits, ?_, ?_⟩
  · have whole : descend fds (fds x) h maxEpitemNum .root none = (linkAt low, parentAt none low) :=
      walked
    rw [rbtreeInsert, whole]
    exact ran
  · rw [search_iff, listed] at search
    rw [search_iff, items]
    have sorted : (before low ++ after low).Pairwise (fds · < fds ·) := search
    rw [List.pairwise_append] at sorted ⊢
    obtain ⟨first, second, across⟩ := sorted
    refine ⟨first, List.pairwise_cons.mpr ⟨greater, second⟩, fun y member z later => ?_⟩
    rcases List.mem_cons.mp later with rfl | later
    · exact smaller y member
    · exact across y member z later
  · rw [items, listed]
    exact List.perm_middle

/-! ## Lookup -/

omit [DecidableEq α] in
/-- The loop of `nsep_find_ep` finds the item of a key in a subtree. -/
theorem findLoop_eq {fds : α → Int} {fd : Int} {t : RbTree α} {up : Option α} {rounds : Nat}
    (held : Held h t up) (search : t.Search fds) (enough : t.items.length ≤ rounds) (x : α) :
    findLoop fds fd h rounds t.top = some x ↔ x ∈ t.items ∧ fds x = fd := by
  induction t generalizing up rounds with
  | nil => cases rounds <;> simp [findLoop, RbTree.top, RbTree.items]
  | node c l y r left right =>
    obtain ⟨first, second, below, beyond⟩ := search
    obtain ⟨-, -, near, far, inside, outside⟩ := held
    simp only [RbTree.items, List.length_append, List.length_cons] at enough
    obtain ⟨rounds, rfl⟩ : ∃ n, rounds = n + 1 := ⟨rounds - 1, by omega⟩
    have top : (RbTree.node c l y r).top = some y := rfl
    simp only [top, findLoop, near, far, RbTree.items, List.mem_append, List.mem_cons]
    split_ifs with greater smaller
    · rw [right outside second (by omega)]
      constructor
      · exact fun found => ⟨.inr (.inr found.1), found.2⟩
      · rintro ⟨lower | rfl | upper, key⟩
        · have order := below x lower
          omega
        · omega
        · exact ⟨upper, key⟩
    · rw [left inside first (by omega)]
      constructor
      · exact fun found => ⟨.inl found.1, found.2⟩
      · rintro ⟨lower | rfl | upper, key⟩
        · exact ⟨lower, key⟩
        · omega
        · have order := beyond x upper
          omega
    · rw [Option.some.injEq]
      constructor
      · rintro rfl
        exact ⟨.inr (.inl rfl), by omega⟩
      · rintro ⟨lower | rfl | upper, key⟩
        · have order := below x lower
          omega
        · rfl
        · have order := beyond x upper
          omega

omit [DecidableEq α] in
theorem first_eq {t : RbTree α} {rounds : Nat} (holds : Holds h t)
    (enough : t.items.length ≤ rounds) : first rounds h = some t.items.head? := by
  unfold first
  rw [holds.root]
  cases top : t.top with
  | none =>
    obtain rfl := RbTree.top_eq_none.mp top
    rfl
  | some x =>
    have found := leftmost_eq holds.held top enough
    dsimp only
    rw [found]
    cases shape : t.items with
    | nil => exact absurd (RbTree.top_mem top) (by simp [shape])
    | cons y rest => rfl

/-! ## Runs -/

/-- The memory of the tree and the fds of the items. -/
structure Store (α : Type) where
  heap : Heap α
  fds : α → Int

/-- An operation on the tree. -/
inductive Op (α : Type)
  /-- `nsep_rbtree_insert` of an item made for this fd. -/
  | insert (epi : α) (fd : Int)
  | erase (epi : α)

/-- An operation in memory. -/
def Op.apply (rounds : Nat) : Op α → Store α → Option (Store α)
  | .insert epi fd, s =>
    let fds := Function.update s.fds epi fd
    (rbtreeInsert rounds fds epi s.heap).map fun heap => ⟨heap, fds⟩
  | .erase epi, s => (EprbTree.erase rounds epi s.heap).map fun heap => { s with heap }

/-- What an operation does to the list of the stored items and their fds. -/
def Op.track : Op α → List (α × Int) → List (α × Int)
  | .insert epi fd, now => (epi, fd) :: now
  | .erase epi, now => now.filter (·.1 ≠ epi)

/-- An item is inserted when it is not stored, its fd is not in use and there is room for it, and
it is erased when it is stored. -/
def Op.Allowed : Op α → List (α × Int) → Prop
  | .insert epi fd, now => (∀ e ∈ now, e.1 ≠ epi ∧ e.2 ≠ fd) ∧ now.length < maxEpitemNum
  | .erase epi, now => ∃ e ∈ now, e.1 = epi

/-- A run of operations. -/
def runOps (rounds : Nat) : List (Op α) → Store α → Option (Store α)
  | [], s => some s
  | op :: ops, s => (op.apply rounds s).bind (runOps rounds ops)

/-- The stored items after a run. -/
def stored : List (Op α) → List (α × Int) → List (α × Int)
  | [], now => now
  | op :: ops, now => stored ops (op.track now)

/-- Every operation of a run is allowed. -/
def AllAllowed : List (Op α) → List (α × Int) → Prop
  | [], _ => True
  | op :: ops, now => op.Allowed now ∧ AllAllowed ops (op.track now)

/-- Memory holds a red-black search tree of the items that are stored. -/
structure Stores (s : Store α) (now : List (α × Int)) (t : RbTree α) : Prop where
  holds : Holds s.heap t
  valid : t.Valid
  search : t.Search s.fds
  items : t.items.Perm (now.map Prod.fst)
  fds : ∀ e ∈ now, s.fds e.1 = e.2
  room : now.length ≤ maxEpitemNum

namespace Stores

variable {s : Store α} {now : List (α × Int)} {t : RbTree α}

omit [DecidableEq α] in
theorem length_items (stores : Stores s now t) : t.items.length ≤ maxEpitemNum := by
  have same := stores.items.length_eq
  rw [List.length_map] at same
  exact same ▸ stores.room

omit [DecidableEq α] in
theorem mem_iff (stores : Stores s now t) (epi : α) (fd : Int) :
    epi ∈ t.items ∧ s.fds epi = fd ↔ (epi, fd) ∈ now := by
  rw [stores.items.mem_iff, List.mem_map]
  constructor
  · rintro ⟨⟨⟨epi, fd'⟩, member, rfl⟩, rfl⟩
    rw [stores.fds _ member]
    exact member
  · intro member
    exact ⟨⟨(epi, fd), member, rfl⟩, stores.fds _ member⟩

/-- An allowed insertion. -/
theorem insert {rounds : Nat} {epi : α} {fd : Int} (stores : Stores s now t)
    (allowed : (Op.insert epi fd).Allowed now) (enough : maxEpitemNum < rounds) :
    ∃ s' t', (Op.insert epi fd).apply rounds s = some s' ∧
      Stores s' ((Op.insert epi fd).track now) t' := by
  obtain ⟨fresh, room⟩ := allowed
  have outside : epi ∉ t.items := by
    rw [stores.items.mem_iff, List.mem_map]
    rintro ⟨e, member, here⟩
    exact (fresh e member).1 here
  set fds := Function.update s.fds epi fd
  have here : fds epi = fd := Function.update_self _ _ _
  have kept (x : α) (away : x ≠ epi) : fds x = s.fds x := Function.update_of_ne away _ _
  have apart (x : α) (member : x ∈ t.items) : x ≠ epi := by
    rintro rfl
    exact outside member
  have search : t.Search fds := by
    have sorted := (search_iff s.fds t).mp stores.search
    refine (search_iff fds t).mpr (sorted.imp_of_mem fun {x y} left right order => ?_)
    rwa [kept x (apart x left), kept y (apart y right)]
  have unused (x : α) (member : x ∈ t.items) : fds x ≠ fds epi := by
    rw [kept x (apart x member), here]
    exact (fresh (x, s.fds x) ((stores.mem_iff x _).mp ⟨member, rfl⟩)).2
  have few := stores.length_items
  obtain ⟨h', t', ran, holds, valid, search', items⟩ :=
    rbtreeInsert_holds stores.holds stores.valid search outside unused few (few.trans_lt enough)
  refine ⟨⟨h', fds⟩, t', ?_, holds, valid, search', ?_, ?_, room⟩
  · simp [Op.apply, ran, fds]
  · exact items.trans (stores.items.cons epi)
  · intro e member
    rcases List.mem_cons.mp member with rfl | older
    · exact here
    · exact (kept e.1 (fresh e older).1).trans (stores.fds e older)

/-- An allowed deletion. -/
theorem erase {rounds : Nat} {epi : α} (stores : Stores s now t)
    (allowed : (Op.erase epi).Allowed now) (enough : maxEpitemNum + 1 < rounds) :
    ∃ s' t', (Op.erase epi).apply rounds s = some s' ∧ Stores s' ((Op.erase epi).track now) t' := by
  have member : epi ∈ t.items := by
    rw [stores.items.mem_iff, List.mem_map]
    exact allowed
  have few := stores.length_items
  have nodup := stores.holds.nodup
  obtain ⟨path, c, l, r, rfl⟩ := exists_path member
  obtain ⟨h', ran, holds⟩ := erase_holds stores.holds stores.valid (by omega : _ < rounds)
  have items : (RedBlack.erase path c l r).items =
      (plug path (.node c l epi r)).items.erase epi := by
    have split : (plug path (.node c l epi r)).items =
        (before path ++ l.items) ++ epi :: (r.items ++ after path) := by
      simp [items_plug, RbTree.items]
    rw [split] at nodup ⊢
    have earlier : epi ∉ before path ++ l.items := fun here =>
      (List.nodup_append.mp nodup).2.2 epi here epi List.mem_cons_self rfl
    rw [items_erase, List.erase_append_right _ earlier, List.erase_cons_head]
    simp
  refine ⟨{ s with heap := h' }, _, ?_, holds, valid_erase stores.valid, ?_, ?_, ?_, ?_⟩
  · simp [Op.apply, ran]
  · rw [search_iff, items]
    exact ((search_iff s.fds _).mp stores.search).sublist List.erase_sublist
  · have alone : (now.map Prod.fst).Nodup := stores.items.nodup_iff.mp nodup
    have filtered : ((Op.erase epi).track now).map Prod.fst = (now.map Prod.fst).erase epi := by
      rw [alone.erase_eq_filter, List.filter_map]
      congr 1
      apply List.filter_congr
      intro e _
      by_cases here : e.1 = epi <;> simp [here]
    rw [items, filtered]
    exact stores.items.erase epi
  · exact fun e inside => stores.fds e (List.mem_of_mem_filter inside)
  · exact (List.length_filter_le _ _).trans stores.room

theorem apply {rounds : Nat} {op : Op α} (stores : Stores s now t) (allowed : op.Allowed now)
    (enough : maxEpitemNum + 1 < rounds) :
    ∃ s' t', op.apply rounds s = some s' ∧ Stores s' (op.track now) t' := by
  cases op with
  | insert epi fd => exact stores.insert allowed (Nat.lt_of_succ_lt enough)
  | erase epi => exact stores.erase allowed enough

theorem runOps {rounds : Nat} {ops : List (Op α)} (stores : Stores s now t)
    (allowed : AllAllowed ops now) (enough : maxEpitemNum + 1 < rounds) :
    ∃ s' t', runOps rounds ops s = some s' ∧ Stores s' (stored ops now) t' := by
  induction ops generalizing s now t with
  | nil => exact ⟨s, t, rfl, stores⟩
  | cons op ops ih =>
    obtain ⟨s₁, t₁, ran, stores₁⟩ := stores.apply allowed.1 enough
    rw [EprbTree.runOps, ran]
    exact ih stores₁ allowed.2

omit [DecidableEq α] in
theorem findEp_eq (stores : Stores s now t) (fd : Int) (epi : α) :
    findEp s.fds fd s.heap = some epi ↔ (epi, fd) ∈ now := by
  rw [findEp, stores.holds.root]
  exact (findLoop_eq stores.holds.held stores.search stores.length_items epi).trans
    (stores.mem_iff epi fd)

omit [DecidableEq α] in
/-- `ep_rb_first` gives the stored item with the smallest fd, if there is one. -/
theorem first_eq {rounds : Nat} (stores : Stores s now t) (enough : maxEpitemNum ≤ rounds) :
    ∃ found, first rounds s.heap = some found ∧ ∀ epi, found = some epi ↔
      ∃ fd, (epi, fd) ∈ now ∧ ∀ e ∈ now, fd ≤ e.2 := by
  refine ⟨t.items.head?, EprbTree.first_eq stores.holds (stores.length_items.trans enough), ?_⟩
  intro epi
  have sorted := (search_iff s.fds t).mp stores.search
  have listed := stores.mem_iff
  cases shape : t.items with
  | nil =>
    rw [shape] at listed
    simp [← listed]
  | cons y rest =>
    rw [shape] at listed sorted
    obtain ⟨least, -⟩ := List.pairwise_cons.mp sorted
    have here : (y, s.fds y) ∈ now := (listed y _).mp ⟨List.mem_cons_self, rfl⟩
    rw [List.head?_cons, Option.some.injEq]
    constructor
    · rintro rfl
      refine ⟨s.fds y, here, fun e member => ?_⟩
      obtain ⟨inside, key⟩ := (listed e.1 e.2).mpr member
      rcases List.mem_cons.mp inside with same | later
      · rw [← key, same]
      · exact key ▸ (least e.1 later).le
    · rintro ⟨fd, member, smallest⟩
      obtain ⟨inside, key⟩ := (listed epi fd).mpr member
      rcases List.mem_cons.mp inside with same | later
      · exact same.symm
      · have below := least epi later
        have above := smallest _ here
        omega

end Stores

omit [DecidableEq α] in
theorem stores_empty {s : Store α} (empty : s.heap.root = none) : Stores s [] .nil where
  holds := ⟨trivial, empty, List.nodup_nil⟩
  valid := ⟨rfl, 0, rfl⟩
  search := trivial
  items := .refl _
  fds := nofun
  room := Nat.zero_le _

/-- From an empty tree, every run of allowed insertions and deletions ends, and memory then holds
a red-black search tree of exactly the items that were inserted and not erased, with every parent
pointer the true one; `nsep_find_ep` gives the item of an fd when it is stored, and `ep_rb_first`
the stored item with the smallest fd. -/
theorem tree_of_epoll_items (rounds : Nat) (enough : maxEpitemNum + 1 < rounds) (s : Store α)
    (empty : s.heap.root = none) (ops : List (Op α)) (allowed : AllAllowed ops []) :
    ∃ s', runOps rounds ops s = some s' ∧
      (∃ t, Holds s'.heap t ∧ t.Search s'.fds ∧ t.Valid ∧
        ∀ epi fd, epi ∈ t.items ∧ s'.fds epi = fd ↔ (epi, fd) ∈ stored ops []) ∧
      (∀ fd epi, findEp s'.fds fd s'.heap = some epi ↔ (epi, fd) ∈ stored ops []) ∧
      ∃ found, first rounds s'.heap = some found ∧ ∀ epi, found = some epi ↔
        ∃ fd, (epi, fd) ∈ stored ops [] ∧ ∀ e ∈ stored ops [], fd ≤ e.2 := by
  obtain ⟨s', t, ran, stores⟩ := (stores_empty empty).runOps allowed enough
  have above : maxEpitemNum ≤ rounds := by omega
  exact ⟨s', ran, ⟨t, stores.holds, stores.search, stores.valid, stores.mem_iff⟩, stores.findEp_eq,
    stores.first_eq above⟩

/-- Three items, the first of which is erased. -/
theorem tree_of_three_items :
    let empty : Store Nat := ⟨⟨fun _ => .black, fun _ => none, fun _ _ => none, none⟩, fun _ => 0⟩
    let ops : List (Op Nat) := [.insert 0 7, .insert 1 3, .insert 2 5, .erase 0]
    ∃ s', runOps 16386 ops empty = some s' ∧ findEp s'.fds 5 s'.heap = some 2 ∧
      first 16386 s'.heap = some (some 1) := by
  intro empty ops
  have allowed : AllAllowed ops [] := by
    simp [ops, AllAllowed, Op.Allowed, Op.track, maxEpitemNum]
  obtain ⟨s', ran, -, finds, found, firstly, least⟩ :=
    tree_of_epoll_items 16386 (by decide) empty rfl ops allowed
  have now : stored ops [] = [(2, 5), (1, 3)] := by decide
  rw [now] at finds least
  refine ⟨s', ran, (finds 5 2).mpr (by simp), ?_⟩
  rw [firstly, (least 1).mpr ⟨3, by simp, by simp⟩]

end Dmm.EprbTree
