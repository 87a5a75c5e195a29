import Dmm.EprbTree.Items
import Mathlib

/-!
# The address tree of the IP module

`trp_rb_tree.c` has the colouring, deletion and rotation code of `eprb_tree.c` under other names, so
that its model is the one of the epoll items. What differs is around it: the nodes are allocated by
`trp_rb_insert` and freed by `trp_rb_erase`, hold a key and data, and keys are compared by a
function that comes with the call.

The tree is a finite map in every run (`Stores`, kept by each call): the bindings are tracked beside
the memory, with the node of each.
-/

namespace Dmm.Ip.AddressTree

open RedBlack Dmm.EprbTree

variable {α κ δ : Type} [DecidableEq α]

/-- The memory of a tree. -/
structure Tree (α κ δ : Type) where
  heap : Heap α
  key : α → κ
  data : α → δ

/-- `rb_insert_color` -/
def rbInsertColor : Nat → α → Heap α → Option (Heap α) := insertColor

/-- `rb_erase` -/
def rbErase : Nat → α → Heap α → Option (Heap α) := EprbTree.erase

/-- Where the loop of `trp_rb_insert` and `trp_rb_search` ends. -/
inductive Walk (α : Type)
  | found (node : α)
  | missing (parent : Option α) (ret : Int)

/-- The loop of `trp_rb_insert` and `trp_rb_search`; `keyCompare` is the `key_compare_fn`. -/
def walk (keyCompare : κ → κ → Int) (keys : α → κ) (key : κ) (h : Heap α) :
    (rounds : Nat) → (node parent : Option α) → (ret : Int) → Option (Walk α)
  | 0, _, _, _ => none
  | _ + 1, none, parent, ret => some (.missing parent ret)
  | rounds + 1, some node, _, _ =>
    let ret := keyCompare (keys node) key
    if 0 < ret then walk keyCompare keys key h rounds (h.child .left node) (some node) ret
    else if 0 > ret then walk keyCompare keys key h rounds (h.child .right node) (some node) ret
    else some (.found node)

/-- The pointer that `trp_rb_insert` sets to the new node. -/
def linkOf : Option α → Int → Link α
  | some parent, ret => .child (if ret > 0 then .left else .right) parent
  | none, _ => .root

/-- `trp_rb_insert`, for which `malloc` gives a node; what it returns. `linkNode` sets the fields as
`rb_new_node` does and the pointer to it. -/
def trpRbInsert (keyCompare : κ → κ → Int) (rounds : Nat) (key : κ) (data : δ) (node : α)
    (s : Tree α κ δ) : Option (Int × Tree α κ δ) := do
  match ← walk keyCompare s.key key s.heap rounds s.heap.root none 0 with
  | .found _ => return (-1, s)
  | .missing parent ret =>
    let heap ← rbInsertColor rounds node (linkNode node parent (linkOf parent ret) s.heap)
    return (0, ⟨heap, Function.update s.key node key, Function.update s.data node data⟩)

/-- `trp_rb_erase`; the node it frees. -/
def trpRbErase (keyCompare : κ → κ → Int) (rounds : Nat) (key : κ) (s : Tree α κ δ) :
    Option (Option α × Tree α κ δ) := do
  match ← walk keyCompare s.key key s.heap rounds s.heap.root none 0 with
  | .missing _ _ => return (none, s)
  | .found node =>
    let heap ← rbErase rounds node s.heap
    return (some node, { s with heap })

/-! ## Maps -/

/-- A call. -/
inductive Op (α κ δ : Type)
  | insert (key : κ) (data : δ) (node : α)
  | erase (key : κ)

/-- What a call returns and frees. -/
structure Reply (α : Type) where
  ret : Int
  freed : Option α
  deriving DecidableEq, Repr

/-- A call in memory. -/
def Op.apply (keyCompare : κ → κ → Int) (rounds : Nat) :
    Op α κ δ → Tree α κ δ → Option (Reply α × Tree α κ δ)
  | .insert key data node, s =>
    (trpRbInsert keyCompare rounds key data node s).map fun (ret, s) => (⟨ret, none⟩, s)
  | .erase key, s => (trpRbErase keyCompare rounds key s).map fun (freed, s) => (⟨0, freed⟩, s)

/-- A run of calls. -/
def runOps (keyCompare : κ → κ → Int) (rounds : Nat) :
    List (Op α κ δ) → Tree α κ δ → Option (List (Reply α) × Tree α κ δ)
  | [], s => some ([], s)
  | op :: ops, s => do
    let (reply, s) ← op.apply keyCompare rounds s
    let (replies, s) ← runOps keyCompare rounds ops s
    return (reply :: replies, s)

section

variable [LinearOrder κ]

/-- A binding and its node. -/
abbrev Binding (α κ δ : Type) := α × κ × δ

/-- What a call does to a finite map. -/
def Op.effect : Op α κ δ → List (Binding α κ δ) → Reply α × List (Binding α κ δ)
  | .insert key data node, now =>
    if ∃ e ∈ now, e.2.1 = key then (⟨-1, none⟩, now) else (⟨0, none⟩, (node, key, data) :: now)
  | .erase key, now =>
    (⟨0, (now.find? (·.2.1 = key)).map Prod.fst⟩, now.filter (·.2.1 ≠ key))

/-- What a run does to a finite map. -/
def effects : List (Op α κ δ) → List (Binding α κ δ) → List (Reply α) × List (Binding α κ δ)
  | [], now => ([], now)
  | op :: ops, now =>
    let (replies, last) := effects ops (op.effect now).2
    ((op.effect now).1 :: replies, last)

/-- A node that `malloc` gives is not in use. -/
def Op.Fresh : Op α κ δ → List (Binding α κ δ) → Prop
  | .insert key _ node, now => (∀ e ∈ now, e.2.1 ≠ key) → ∀ e ∈ now, e.1 ≠ node
  | .erase _, _ => True

/-- Every node that `malloc` gives in a run is not in use. -/
def AllFresh : List (Op α κ δ) → List (Binding α κ δ) → Prop
  | [], _ => True
  | op :: ops, now => op.Fresh now ∧ AllFresh ops (op.effect now).2

/-- The function compares by the order of the keys. -/
def Compares (keyCompare : κ → κ → Int) : Prop :=
  ∀ a b, (0 < keyCompare a b ↔ b < a) ∧ (keyCompare a b < 0 ↔ a < b)

/-- The binding of a node. -/
def Tree.binding (s : Tree α κ δ) (x : α) : Binding α κ δ := (x, s.key x, s.data x)

/-- Memory holds a red-black search tree of the bindings. -/
structure Stores (s : Tree α κ δ) (now : List (Binding α κ δ)) (t : RbTree α) : Prop where
  holds : Holds s.heap t
  valid : t.Valid
  sorted : t.items.Pairwise (s.key · < s.key ·)
  content : (t.items.map s.binding).Perm now

/-! ## Walking down -/

variable {h : Heap α} {path : List (Frame α)} {keyCompare : κ → κ → Int} {keys : α → κ} {key : κ}

omit [DecidableEq α] in
/-- The loop finds the node of a key, or the end of the path where the key belongs. -/
theorem walk_spec (compares : Compares keyCompare) {t : RbTree α} {rounds : Nat} {ret : Int}
    (focus : Focus h path t) (sorted : t.items.Pairwise (keys · < keys ·))
    (smaller : ∀ x ∈ before path, keys x < key) (greater : ∀ x ∈ after path, key < keys x)
    (place : linkOf (parentAt none path) ret = linkAt path) (enough : t.items.length < rounds) :
    (∃ x ∈ t.items, keys x = key ∧
      walk keyCompare keys key h rounds t.top (parentAt none path) ret = some (.found x)) ∨
    ((∀ x ∈ t.items, keys x ≠ key) ∧ ∃ low ret', walk keyCompare keys key h rounds t.top
        (parentAt none path) ret = some (.missing (parentAt none low) ret') ∧
      linkOf (parentAt none low) ret' = linkAt low ∧ plug low .nil = plug path t ∧
      (∀ x ∈ before low, keys x < key) ∧ ∀ x ∈ after low, key < keys x) := by
  induction t generalizing path rounds ret with
  | nil =>
    obtain ⟨rounds, rfl⟩ : ∃ n, rounds = n + 1 := ⟨rounds - 1, by omega⟩
    exact .inr ⟨nofun, path, ret, rfl, place, rfl, smaller, greater⟩
  | node c l x r left right =>
    simp only [RbTree.items, List.length_append, List.length_cons] at enough
    obtain ⟨rounds, rfl⟩ : ∃ n, rounds = n + 1 := ⟨rounds - 1, by omega⟩
    obtain ⟨first, rest, across⟩ := List.pairwise_append.mp sorted
    obtain ⟨beyond, second⟩ := List.pairwise_cons.mp rest
    obtain ⟨above, below⟩ := compares (keys x) key
    have near : h.child .left x = l.top := (focus.sub).2.2.1
    have far : h.child .right x = r.top := (focus.sub).2.2.2.1
    have top : (RbTree.node c l x r).top = some x := rfl
    rw [top]
    simp only [walk, RbTree.items, List.mem_append, List.mem_cons]
    split_ifs with up down
    · -- the key belongs to the left of the node
      have less := above.mp up
      have next : Focus h (⟨.left, c, x, r⟩ :: path) l := focus
      have bound : ∀ y ∈ after (⟨.left, c, x, r⟩ :: path), key < keys y := by
        simp only [after, List.cons_append, List.mem_cons, List.mem_append]
        rintro y (rfl | inside | later)
        · exact less
        · exact less.trans (beyond y inside)
        · exact greater y later
      have here : linkOf (parentAt none (⟨.left, c, x, r⟩ :: path)) (keyCompare (keys x) key) =
          linkAt (⟨.left, c, x, r⟩ :: path) := by simp [linkOf, parentAt, linkAt, up]
      rw [near]
      obtain ⟨y, member, same, ran⟩ | ⟨none, low, ret', ran, at', shape, bounds⟩ :=
        left next first smaller bound here (show l.items.length < rounds by omega)
      · exact .inl ⟨y, .inl member, same, ran⟩
      · refine .inr ⟨?_, low, ret', ran, at', shape, bounds⟩
        rintro y (lower | rfl | upper)
        · exact none y lower
        · exact less.ne'
        · exact (less.trans (beyond y upper)).ne'
    · have more := below.mp down
      have next : Focus h (⟨.right, c, x, l⟩ :: path) r := focus
      have bound : ∀ y ∈ before (⟨.right, c, x, l⟩ :: path), keys y < key := by
        simp only [before, List.mem_append, List.mem_singleton]
        rintro y (earlier | inside | rfl)
        · exact smaller y earlier
        · exact (across y inside x (by simp)).trans more
        · exact more
      have here : linkOf (parentAt none (⟨.right, c, x, l⟩ :: path)) (keyCompare (keys x) key) =
          linkAt (⟨.right, c, x, l⟩ :: path) := by simp [linkOf, parentAt, linkAt, up]
      rw [far]
      obtain ⟨y, member, same, ran⟩ | ⟨none, low, ret', ran, at', shape, bounds⟩ :=
        right next second bound greater here (show r.items.length < rounds by omega)
      · exact .inl ⟨y, .inr (.inr member), same, ran⟩
      · refine .inr ⟨?_, low, ret', ran, at', shape, bounds⟩
        rintro y (lower | rfl | upper)
        · exact ((across y lower x (by simp)).trans more).ne
        · exact more.ne
        · exact none y upper
    · have same : keys x = key :=
        le_antisymm (not_lt.mp (mt above.mpr up)) (not_lt.mp (mt below.mpr down))
      exact .inl ⟨x, .inr (.inl rfl), same, rfl⟩

/-! ## Calls -/

namespace Stores

variable {s : Tree α κ δ} {now : List (Binding α κ δ)} {t : RbTree α} {rounds : Nat} {data : δ}
  {node : α}

omit [DecidableEq α] in
theorem bound_iff (stores : Stores s now t) (key : κ) :
    (∃ e ∈ now, e.2.1 = key) ↔ ∃ x ∈ t.items, s.key x = key := by
  simp [← stores.content.mem_iff, Tree.binding]

omit [DecidableEq α] in
theorem key_inj (stores : Stores s now t) {x y : α} (here : x ∈ t.items) (there : y ∈ t.items)
    (same : s.key x = s.key y) : x = y := by
  have apart : (t.items.map s.key).Nodup :=
    List.pairwise_map.mpr (stores.sorted.imp fun order => order.ne)
  exact List.inj_on_of_nodup_map apart here there same

omit [DecidableEq α] in
theorem walk_root (compares : Compares keyCompare) (stores : Stores s now t)
    (enough : t.items.length < rounds) (key : κ) :
    (∃ x ∈ t.items, s.key x = key ∧
      walk keyCompare s.key key s.heap rounds s.heap.root none 0 = some (.found x)) ∨
    ((∀ x ∈ t.items, s.key x ≠ key) ∧ ∃ low ret', walk keyCompare s.key key s.heap rounds
        s.heap.root none 0 = some (.missing (parentAt none low) ret') ∧
      linkOf (parentAt none low) ret' = linkAt low ∧ plug low .nil = t ∧
      (∀ x ∈ before low, s.key x < key) ∧ ∀ x ∈ after low, key < s.key x) := by
  have focus : Focus s.heap [] t := stores.holds
  have walked := @walk_spec _ _ _ _ _ keyCompare s.key key compares t rounds 0 focus stores.sorted
    (by simp [before]) (by simp [after]) rfl enough
  rw [← stores.holds.root] at walked
  exact walked

theorem insert_bound (compares : Compares keyCompare) (stores : Stores s now t)
    (enough : t.items.length < rounds) (bound : ∃ e ∈ now, e.2.1 = key) :
    trpRbInsert keyCompare rounds key data node s = some (-1, s) := by
  obtain ⟨y, held, same⟩ := (stores.bound_iff key).mp bound
  obtain ⟨x, -, -, ran⟩ | ⟨none, -⟩ := stores.walk_root compares enough key
  · simp [trpRbInsert, ran]
  · exact absurd same (none y held)

/-- An insertion of a new key puts its node into the tree. -/
theorem insert_new (compares : Compares keyCompare) (stores : Stores s now t)
    (enough : t.items.length < rounds) (absent : ¬ ∃ e ∈ now, e.2.1 = key)
    (fresh : ∀ e ∈ now, e.1 ≠ node) :
    ∃ s' t', trpRbInsert keyCompare rounds key data node s = some (0, s') ∧
      Stores s' ((node, key, data) :: now) t' := by
  rw [stores.bound_iff] at absent
  obtain ⟨x, held, same, -⟩ | ⟨-, low, ret, ran, place, rfl, smaller, greater⟩ :=
    stores.walk_root compares enough key
  · exact absurd ⟨x, held, same⟩ absent
  have listed := items_plug low (.nil : RbTree α)
  rw [RbTree.items, List.nil_append] at listed
  have outside : ∀ x ∈ (plug low .nil).items, x ≠ node := fun x held =>
    fresh _ (stores.content.subset (List.mem_map_of_mem held))
  have focus := linkNode_focus stores.holds (x := node) fun here =>
    outside node ((items_plug_perm ..).mem_iff.mpr (List.mem_append_left _ here)) rfl
  obtain ⟨n, balanced, fits, -⟩ := valid_plug.mp stores.valid
  have leaf : (RbTree.node .red .nil node .nil).Balanced n := ⟨rfl, rfl, balanced, balanced⟩
  have short : low.length < rounds := by
    have size := length_path_le low (.nil : RbTree α)
    omega
  obtain ⟨h', colored, holds⟩ := insertColor_holds focus rfl rfl fits short
  have items : ((RedBlack.insertColor low (.node .red .nil node .nil)).paint .black).items =
      before low ++ node :: after low := by
    rw [RbTree.items_paint, items_insertColor, items_plug]
    rfl
  let s' : Tree α κ δ := ⟨h', Function.update s.key node key, Function.update s.data node data⟩
  have kept : ∀ x ∈ before low ++ after low, s'.binding x = s.binding x := by
    intro x held
    have away := outside x (listed ▸ held)
    simp [Tree.binding, s', away]
  have keys : ∀ x ∈ before low ++ after low, s'.key x = s.key x := fun x held =>
    congrArg (·.2.1) (kept x held)
  have here : s'.key node = key := Function.update_self ..
  refine ⟨s', _, ?_, holds, valid_insertColor leaf rfl fits, ?_, ?_⟩
  · simp [trpRbInsert, ran, place, rbInsertColor, colored, s']
  · have sorted := stores.sorted
    rw [listed] at sorted
    have ordered : (before low ++ after low).Pairwise (s'.key · < s'.key ·) :=
      sorted.imp_of_mem fun {x y} left right order => by rwa [keys x left, keys y right]
    obtain ⟨first, second, across⟩ := List.pairwise_append.mp ordered
    rw [items, List.pairwise_append, List.pairwise_cons]
    refine ⟨first, ⟨fun y later => ?_, second⟩, fun y earlier z later => ?_⟩
    · rw [here, keys y (List.mem_append_right _ later)]
      exact greater y later
    · obtain rfl | later := List.mem_cons.mp later
      · rw [here, keys y (List.mem_append_left _ earlier)]
        exact smaller y earlier
      · exact across y earlier z later
  · have old : ((before low ++ after low).map s.binding).Perm now := listed ▸ stores.content
    rw [items, List.map_append, List.map_cons]
    refine List.perm_middle.trans ?_
    rw [← List.map_append, List.map_congr_left kept]
    have mine : s'.binding node = (node, key, data) := by simp [Tree.binding, s']
    exact mine ▸ old.cons _

/-- A deletion removes the binding of its key and frees the node. -/
theorem erase (compares : Compares keyCompare) (stores : Stores s now t)
    (enough : t.items.length + 1 < rounds) (key : κ) :
    ∃ s' t', trpRbErase keyCompare rounds key s =
        some ((now.find? (·.2.1 = key)).map Prod.fst, s') ∧
      Stores s' (now.filter (·.2.1 ≠ key)) t' := by
  obtain ⟨x, held, same, ran⟩ | ⟨absent, low, ret, ran, -⟩ :=
    stores.walk_root compares (by omega : _ < rounds) key
  · have only : ∀ e ∈ now, e.2.1 = key → e = s.binding x := by
      intro e member bound
      obtain ⟨y, there, rfl⟩ := List.mem_map.mp (stores.content.mem_iff.mpr member)
      rw [stores.key_inj there held (Eq.trans bound same.symm)]
    have found : now.find? (·.2.1 = key) = some (s.binding x) := by
      cases found : now.find? (·.2.1 = key) with
      | none =>
        have member := stores.content.subset (List.mem_map_of_mem held)
        have := List.find?_eq_none.mp found _ member
        simp [Tree.binding, same] at this
      | some e =>
        have hit := List.find?_some found
        rw [only e (List.mem_of_find?_eq_some found) (by simpa using hit)]
    have nodup := stores.holds.nodup
    obtain ⟨path, c, l, r, rfl⟩ := exists_path held
    obtain ⟨h', erased, holds⟩ := erase_holds stores.holds stores.valid enough
    have items : (RedBlack.erase path c l r).items = (plug path (.node c l x r)).items.erase x := by
      have split : (plug path (.node c l x r)).items =
          (before path ++ l.items) ++ x :: (r.items ++ after path) := by
        simp [items_plug, RbTree.items]
      rw [split] at nodup ⊢
      have earlier : x ∉ before path ++ l.items := fun here =>
        (List.nodup_append.mp nodup).2.2 x here x List.mem_cons_self rfl
      rw [items_erase, List.erase_append_right _ earlier, List.erase_cons_head]
      simp
    refine ⟨{ s with heap := h' }, _, ?_, holds, valid_erase stores.valid, ?_, ?_⟩
    · simp [trpRbErase, ran, rbErase, erased, found, Tree.binding]
    · rw [items]
      exact stores.sorted.sublist List.erase_sublist
    · have others : ∀ y ∈ (plug path (.node c l x r)).items, y = x ↔ s.key y = key := fun y there =>
        ⟨fun eq => eq ▸ same, fun eq => stores.key_inj there held (eq.trans same.symm)⟩
      have rest := stores.content.filter fun e => decide (e.2.1 ≠ key)
      rw [List.filter_map] at rest
      rw [items, nodup.erase_eq_filter, List.filter_congr fun y there => ?_]
      · exact rest
      · rw [Bool.eq_iff_iff]
        simp only [bne_iff_ne, Function.comp_apply, Tree.binding, ne_eq, others y there]
        exact decide_eq_true_iff.symm
  · have none : now.find? (·.2.1 = key) = none := by
      rw [List.find?_eq_none]
      intro e member
      have unbound := mt (stores.bound_iff key).mp (by simpa using absent)
      simp only [decide_eq_true_eq]
      exact fun bound => unbound ⟨e, member, bound⟩
    have all : now.filter (·.2.1 ≠ key) = now := by
      rw [List.filter_eq_self]
      intro e member
      simpa using List.find?_eq_none.mp none e member
    exact ⟨s, t, by simp [trpRbErase, ran, none], by rwa [all]⟩

theorem apply (compares : Compares keyCompare) (stores : Stores s now t)
    (enough : t.items.length + 1 < rounds) {op : Op α κ δ} (fresh : op.Fresh now) :
    ∃ s' t', op.apply keyCompare rounds s = some ((op.effect now).1, s') ∧
      Stores s' (op.effect now).2 t' := by
  cases op with
  | insert key data node =>
    by_cases bound : ∃ e ∈ now, e.2.1 = key
    · refine ⟨s, t, ?_, ?_⟩
      · simp only [Op.apply, stores.insert_bound compares (by omega : _ < rounds) bound,
          Op.effect, if_pos bound, Option.map_some]
      · rw [Op.effect, if_pos bound]
        exact stores
    · have unused := fresh fun e member same => bound ⟨e, member, same⟩
      obtain ⟨s', t', ran, stores'⟩ := @insert_new _ _ _ _ _ _ _ _ _ _ _ data _ compares stores
        (by omega : _ < rounds) bound unused
      refine ⟨s', t', ?_, ?_⟩
      · simp only [Op.apply, ran, Op.effect, if_neg bound, Option.map_some]
      · rw [Op.effect, if_neg bound]
        exact stores'
  | erase key =>
    obtain ⟨s', t', ran, stores'⟩ := stores.erase compares enough key
    exact ⟨s', t', by simp only [Op.apply, ran, Op.effect, Option.map_some], stores'⟩

omit [DecidableEq α] in
theorem length_items (stores : Stores s now t) : t.items.length = now.length := by
  rw [← stores.content.length_eq, List.length_map]

theorem runOps (compares : Compares keyCompare) {ops : List (Op α κ δ)} (stores : Stores s now t)
    (enough : now.length + ops.length + 1 < rounds) (fresh : AllFresh ops now) :
    ∃ s' t', runOps keyCompare rounds ops s = some ((effects ops now).1, s') ∧
      Stores s' (effects ops now).2 t' := by
  induction ops generalizing s now t with
  | nil => exact ⟨s, t, rfl, stores⟩
  | cons op ops ih =>
    have size := stores.length_items
    rw [List.length_cons] at enough
    obtain ⟨s₁, t₁, ran, stores₁⟩ := stores.apply compares (by omega : _ + 1 < rounds) fresh.1
    have grown : (op.effect now).2.length ≤ now.length + 1 := by
      cases op with
      | insert key data node =>
        rw [Op.effect]
        split <;> simp
      | erase key => exact (List.length_filter_le ..).trans (Nat.le_succ _)
    obtain ⟨s₂, t₂, rest, stores₂⟩ := ih stores₁ (by omega) fresh.2
    exact ⟨s₂, t₂, by simp [AddressTree.runOps, ran, rest, effects], stores₂⟩

end Stores

omit [DecidableEq α] in
theorem stores_empty {s : Tree α κ δ} (empty : s.heap.root = none) : Stores s [] .nil where
  holds := ⟨trivial, empty, List.nodup_nil⟩
  valid := ⟨rfl, 0, rfl⟩
  sorted := .nil
  content := .refl _

/-- After every run from an empty tree memory holds a red-black search tree, with every parent
pointer the true one, of exactly the bindings of the map; each call has returned, and freed, what
the map says, and the insertion of a bound key changes nothing. -/
theorem address_tree_is_map (keyCompare : κ → κ → Int) (compares : Compares keyCompare)
    (s : Tree α κ δ) (empty : s.heap.root = none) (ops : List (Op α κ δ)) (fresh : AllFresh ops [])
    (rounds : Nat) (enough : ops.length + 1 < rounds) :
    ∃ s', runOps keyCompare rounds ops s = some ((effects ops []).1, s') ∧
      (∃ t, Holds s'.heap t ∧ t.Valid ∧ t.items.Pairwise (s'.key · < s'.key ·) ∧
        (t.items.map s'.binding).Perm (effects ops []).2) ∧
      ∀ key data node, (∃ e ∈ (effects ops []).2, e.2.1 = key) →
        ∃ more, trpRbInsert keyCompare more key data node s' = some (-1, s') := by
  obtain ⟨s', t, ran, stores⟩ := (stores_empty empty).runOps compares (by simpa using enough) fresh
  refine ⟨s', ran, ⟨t, stores.holds, stores.valid, stores.sorted, stores.content⟩, ?_⟩
  intro key data node bound
  exact ⟨_, stores.insert_bound compares (Nat.lt_succ_self _) bound⟩

end

/-- Three keys, one of them twice, and the deletion of one. -/
theorem address_tree_of_three :
    let empty : Tree Nat Int Nat := ⟨⟨fun _ => .black, fun _ => none, fun _ _ => none, none⟩,
      fun _ => 0, fun _ => 0⟩
    let ops : List (Op Nat Int Nat) :=
      [.insert 7 0 0, .insert 3 0 1, .insert 7 1 2, .insert 5 0 2, .erase 7]
    ∃ s', runOps (· - ·) 10 ops empty =
      some ([⟨0, none⟩, ⟨0, none⟩, ⟨-1, none⟩, ⟨0, none⟩, ⟨0, some 0⟩], s') := by
  intro empty ops
  have compares : Compares fun a b : Int => a - b := fun a b => ⟨sub_pos, sub_neg⟩
  obtain ⟨s', ran, -⟩ := address_tree_is_map (fun a b : Int => a - b) compares empty rfl ops
    (by simp [ops, AllFresh, Op.Fresh, Op.effect]) 10 (by decide)
  exact ⟨s', ran⟩

end Dmm.Ip.AddressTree
