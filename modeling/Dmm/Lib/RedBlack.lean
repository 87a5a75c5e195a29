import Mathlib

/-!
# Red-black trees with a path to a subtree

Trees whose nodes carry a colour, and zippers: a path of frames leads from a subtree up to
the root (`plug`). What happens on one side of a node and its mirror image are one case:
`join s` builds a node from its child on the side `s`, its item and its other child.

The rebalancing of bottom-up red-black trees walks such a path upwards. `insertColor` removes a
red node below a red one, `eraseColor` a subtree that is short of one black node; both leave
the order of the items (`items_insertColor`, `items_eraseColor`) and give a tree that is
`Valid`: its root is black, no red node has a red child, and all paths to the leaves have the
same number of black nodes (`valid_insertColor`, `valid_eraseColor`). `erase` takes a node out,
putting its successor in its place when it has two children.
-/

namespace Dmm.RedBlack

/-- The colour of a node. -/
inductive Color
  | red
  | black
  deriving DecidableEq, Repr

/-- A side of a node. -/
inductive Side
  | left
  | right
  deriving DecidableEq, Repr

/-- The other side. -/
def Side.flip : Side → Side
  | .left => .right
  | .right => .left

@[simp]
theorem Side.flip_flip (s : Side) : s.flip.flip = s := by cases s <;> rfl

@[simp]
theorem Side.flip_ne (s : Side) : s.flip ≠ s := by cases s <;> decide

theorem Side.eq_flip_of_ne {s s' : Side} (other : s ≠ s') : s = s'.flip := by
  cases s <;> cases s' <;> simp_all [Side.flip]

/-- A binary tree with a colour and an item in each node. -/
inductive RbTree (α : Type)
  | nil
  | node (color : Color) (left : RbTree α) (item : α) (right : RbTree α)

variable {α : Type}

namespace RbTree

/-- The colour of the root; an empty tree counts as black. -/
def color : RbTree α → Color
  | nil => .black
  | node c _ _ _ => c

/-- The item of the root. -/
def top : RbTree α → Option α
  | nil => none
  | node _ _ x _ => some x

/-- The items in order. -/
def items : RbTree α → List α
  | nil => []
  | node _ l x r => l.items ++ x :: r.items

/-- The child on a side. -/
def kid (s : Side) : RbTree α → RbTree α
  | nil => nil
  | node _ l _ r =>
    match s with
    | .left => l
    | .right => r

/-- The tree with its root in another colour. -/
def paint (c : Color) : RbTree α → RbTree α
  | nil => nil
  | node _ l x r => node c l x r

/-- No red node has a red child, and every path from the root to a leaf has `n` black nodes. -/
def Balanced : RbTree α → Nat → Prop
  | nil, n => n = 0
  | node .red l _ r, n => l.color = .black ∧ r.color = .black ∧ l.Balanced n ∧ r.Balanced n
  | node .black l _ r, n => ∃ m, n = m + 1 ∧ l.Balanced m ∧ r.Balanced m

/-- A red-black tree: balanced, with a black root. -/
def Valid (t : RbTree α) : Prop := t.color = .black ∧ ∃ n, t.Balanced n

end RbTree

/-! ## Nodes up to mirroring -/

/-- The node with these children, the first on side `s`. -/
def join (s : Side) (c : Color) (near : RbTree α) (x : α) (far : RbTree α) : RbTree α :=
  match s with
  | .left => .node c near x far
  | .right => .node c far x near

section Join

variable (s : Side) (c c' : Color) (a b : RbTree α) (x : α)

@[simp]
theorem color_join : (join s c a x b).color = c := by cases s <;> rfl

@[simp]
theorem top_join : (join s c a x b).top = some x := by cases s <;> rfl

@[simp]
theorem kid_join : (join s c a x b).kid s = a := by cases s <;> rfl

@[simp]
theorem kid_flip_join : (join s c a x b).kid s.flip = b := by cases s <;> rfl

@[simp]
theorem paint_join : (join s c a x b).paint c' = join s c' a x b := by cases s <;> rfl

theorem join_flip : join s.flip c a x b = join s c b x a := by cases s <;> rfl

theorem eq_join {t : RbTree α} {x : α} (full : t.top = some x) :
    t = join s t.color (t.kid s) x (t.kid s.flip) := by
  cases t with
  | nil => cases full
  | node c l y r =>
    obtain rfl := Option.some.inj full
    cases s <;> rfl

theorem items_rotate (d e : Color) (y : α) (near : RbTree α) :
    (join s c (join s c' near x a) y b).items = (join s d near x (join s e a y b)).items := by
  cases s <;> simp [join, RbTree.items]

theorem items_join_congr {a' b' : RbTree α} (near : a.items = a'.items) (far : b.items = b'.items) :
    (join s c a x b).items = (join s c' a' x b').items := by
  cases s <;> simp [join, RbTree.items, near, far]

theorem items_join_perm : (join s c a x b).items.Perm (x :: (b.items ++ a.items)) := by
  cases s
  · simp only [join, RbTree.items]
    exact List.perm_middle.trans ((List.perm_append_comm).cons x)
  · simp only [join, RbTree.items]
    exact List.perm_middle

theorem balanced_join_red (n : Nat) : (join s .red a x b).Balanced n ↔
    a.color = .black ∧ b.color = .black ∧ a.Balanced n ∧ b.Balanced n := by
  cases s <;> simp only [join, RbTree.Balanced]
  tauto

theorem balanced_join_black (n : Nat) : (join s .black a x b).Balanced (n + 1) ↔
    a.Balanced n ∧ b.Balanced n := by
  cases s <;> simp [join, RbTree.Balanced, and_comm]

theorem balanced_join {n : Nat} (near : a.Balanced n) (far : b.Balanced n)
    (dark : c = .red → a.color = .black ∧ b.color = .black) :
    (join s c a x b).Balanced (if c = .black then n + 1 else n) := by
  cases c with
  | red => exact (balanced_join_red ..).mpr ⟨(dark rfl).1, (dark rfl).2, near, far⟩
  | black => exact (balanced_join_black ..).mpr ⟨near, far⟩

end Join

namespace RbTree

@[simp]
theorem items_paint (c : Color) (t : RbTree α) : (t.paint c).items = t.items := by cases t <;> rfl

@[simp]
theorem top_paint (c : Color) (t : RbTree α) : (t.paint c).top = t.top := by cases t <;> rfl

@[simp]
theorem color_paint_black (t : RbTree α) : (t.paint .black).color = .black := by cases t <;> rfl

theorem paint_of_color {c : Color} {t : RbTree α} (color : t.color = c) : t.paint c = t := by
  subst color
  cases t <;> rfl

theorem top_eq_none {t : RbTree α} : t.top = none ↔ t = nil := by cases t <;> simp [top]

theorem top_mem {t : RbTree α} {x : α} (full : t.top = some x) : x ∈ t.items := by
  cases t with
  | nil => cases full
  | node c l y r =>
    obtain rfl := Option.some.inj full
    simp [items]

theorem exists_top_of_red {t : RbTree α} (red : t.color = .red) : ∃ x, t.top = some x := by
  cases t with
  | nil => cases red
  | node c l x r => exact ⟨x, rfl⟩

theorem Balanced.exists_top {t : RbTree α} {n : Nat} (balanced : t.Balanced (n + 1)) :
    ∃ x, t.top = some x := by
  cases t with
  | nil => cases balanced
  | node c l x r => exact ⟨x, rfl⟩

/-- A red root may become black: one more black node on every path. -/
theorem Balanced.paint_black {t : RbTree α} {n : Nat} (balanced : t.Balanced n)
    (red : t.color = .red) : (t.paint .black).Balanced (n + 1) := by
  obtain ⟨x, full⟩ := exists_top_of_red red
  rw [eq_join .left full, red, balanced_join_red] at balanced
  rw [eq_join .left full, paint_join, balanced_join_black]
  exact balanced.2.2

/-- A balanced tree becomes a red-black tree with a black root. -/
theorem Balanced.valid_paint {t : RbTree α} {n : Nat} (balanced : t.Balanced n) :
    (t.paint .black).Valid := by
  cases t with
  | nil => exact ⟨rfl, 0, rfl⟩
  | node c l x r =>
    cases c with
    | red => exact ⟨rfl, n + 1, balanced.paint_black rfl⟩
    | black => exact ⟨rfl, n, balanced⟩

end RbTree

/-! ## Paths -/

/-- A node above a subtree: the side the subtree is on, and what the node has besides. -/
structure Frame (α : Type) where
  side : Side
  color : Color
  item : α
  sibling : RbTree α

/-- The node with a subtree in its place. -/
def Frame.attach (f : Frame α) (t : RbTree α) : RbTree α := join f.side f.color t f.item f.sibling

/-- The tree with a subtree at the lower end of a path. -/
def plug : List (Frame α) → RbTree α → RbTree α
  | [], t => t
  | f :: up, t => plug up (f.attach t)

/-- The colour above a subtree; a root counts as below a red node, so that it has to be black. -/
def above : List (Frame α) → Color
  | [] => .red
  | f :: _ => f.color

@[simp]
theorem above_cons (f : Frame α) (up : List (Frame α)) : above (f :: up) = f.color := rfl

/-- A path is balanced for a subtree with `n` black nodes on each of its paths. -/
def Fits : List (Frame α) → Nat → Prop
  | [], _ => True
  | f :: up, n => f.sibling.Balanced n ∧ (f.color = .red → f.sibling.color = .black ∧
      above up = .black) ∧ Fits up (if f.color = .black then n + 1 else n)

/-- A tree is a red-black tree when a subtree and the path above it are balanced and no red node
is below a red one between them. -/
theorem valid_plug {up : List (Frame α)} {t : RbTree α} : (plug up t).Valid ↔
    ∃ n, t.Balanced n ∧ Fits up n ∧ (above up = .red → t.color = .black) := by
  induction up generalizing t with
  | nil =>
    simp only [plug, RbTree.Valid, Fits, above, true_and, forall_const]
    tauto
  | cons f up ih =>
    obtain ⟨s, c, x, sibling⟩ := f
    rw [plug, ih]
    cases c with
    | red =>
      simp only [Frame.attach, balanced_join_red, color_join, Fits, above_cons, reduceCtorEq,
        if_false, imp_false, forall_const]
      constructor
      · rintro ⟨n, ⟨black, black', near, far⟩, fits, dark⟩
        refine ⟨n, near, ⟨far, ⟨black', ?_⟩, fits⟩, black⟩
        cases color : above up with
        | red => exact absurd color dark
        | black => rfl
      · grind
    | black =>
      simp only [Frame.attach, color_join, Fits, above_cons, reduceCtorEq, if_true,
        IsEmpty.forall_iff, implies_true, and_true, true_and]
      constructor
      · rintro ⟨n, balanced, fits⟩
        cases n with
        | zero => cases s <;> simp [join, RbTree.Balanced] at balanced
        | succ n => grind [balanced_join_black]
      · grind [balanced_join_black]

/-- A subtree that fits at the end of a path, with no red node below a red one. -/
theorem valid_plug_of {up : List (Frame α)} {t : RbTree α} {n : Nat} (balanced : t.Balanced n)
    (fits : Fits up n) (black : t.color = .black) : (plug up t).Valid :=
  valid_plug.mpr ⟨n, balanced, fits, fun _ => black⟩

theorem plug_append (low up : List (Frame α)) (t : RbTree α) :
    plug (low ++ up) t = plug up (plug low t) := by
  induction low generalizing t with
  | nil => rfl
  | cons f low ih => exact ih (f.attach t)

/-- The items before the subtree at the end of a path. -/
def before : List (Frame α) → List α
  | [] => []
  | f :: up =>
    match f.side with
    | .left => before up
    | .right => before up ++ (f.sibling.items ++ [f.item])

/-- The items after the subtree at the end of a path. -/
def after : List (Frame α) → List α
  | [] => []
  | f :: up =>
    match f.side with
    | .left => f.item :: f.sibling.items ++ after up
    | .right => after up

theorem items_plug (up : List (Frame α)) (t : RbTree α) :
    (plug up t).items = before up ++ (t.items ++ after up) := by
  induction up generalizing t with
  | nil => simp [plug, before, after]
  | cons f up ih =>
    obtain ⟨s, c, x, sibling⟩ := f
    rw [plug, ih]
    cases s <;> simp [Frame.attach, join, RbTree.items, before, after]

theorem before_append (low up : List (Frame α)) : before (low ++ up) = before up ++ before low := by
  induction low with
  | nil => simp [before]
  | cons f low ih =>
    obtain ⟨s, c, x, sibling⟩ := f
    cases s <;> simp [before, ih]

theorem items_plug_congr (up : List (Frame α)) {t t' : RbTree α} (same : t.items = t'.items) :
    (plug up t).items = (plug up t').items := by
  rw [items_plug, items_plug, same]

/-! ## After an insertion -/

/-- The end of the rebalancing after an insertion: the red node `t` is below the red node of `f`
and that one below the node of `g`, whose other child is not red. -/
def insertSettle (f g : Frame α) (t : RbTree α) : RbTree α :=
  if f.side = g.side then
    join g.side .black t f.item (join g.side .red f.sibling g.item g.sibling)
  else
    match t with
    | .nil => g.attach (f.attach t)
    | .node _ _ x _ =>
      join g.side .black (join g.side .red f.sibling f.item (t.kid g.side)) x
        (join g.side .red (t.kid g.side.flip) g.item g.sibling)

/-- Rebalancing after an insertion, from the subtree whose root may be red below a red node. -/
def insertColor : List (Frame α) → RbTree α → RbTree α
  | f :: g :: up, t =>
    if f.color = .black then plug (f :: g :: up) t
    else if g.sibling.color = .red then
      insertColor up (join g.side .red (join f.side .black t f.item f.sibling) g.item
        (g.sibling.paint .black))
    else plug up (insertSettle f g t)
  | up, t => plug up t

theorem items_insertSettle (f g : Frame α) (t : RbTree α) :
    (insertSettle f g t).items = (g.attach (f.attach t)).items := by
  obtain ⟨s, c, x, sibling⟩ := f
  obtain ⟨s', c', y, uncle⟩ := g
  unfold insertSettle
  split_ifs with same
  · obtain rfl : s = s' := same
    cases s <;> simp [Frame.attach, join, RbTree.items]
  · obtain rfl : s = s'.flip := Side.eq_flip_of_ne same
    cases t with
    | nil => rfl
    | node d l z r => cases s' <;> simp [Frame.attach, join, RbTree.items, RbTree.kid, Side.flip]

theorem items_insertColor (up : List (Frame α)) (t : RbTree α) :
    (insertColor up t).items = (plug up t).items := by
  fun_induction insertColor up t with
  | case1 => rfl
  | case2 f g up t _ _ ih =>
    rw [ih, plug, plug]
    apply items_plug_congr
    exact items_join_congr _ _ _ _ _ _ (items_join_congr _ _ _ _ _ _ rfl rfl)
      (RbTree.items_paint _ _)
  | case3 f g up t =>
    rw [plug, plug]
    exact items_plug_congr up (items_insertSettle f g t)
  | case4 => rfl

/-- The end of the rebalancing gives a black root with one more black node on each path. -/
theorem balanced_insertSettle {f g : Frame α} {t : RbTree α} {n : Nat} (balanced : t.Balanced n)
    (red : t.color = .red) (sibling : f.sibling.Balanced n) (black : f.sibling.color = .black)
    (uncle : g.sibling.Balanced n) (black' : g.sibling.color = .black) :
    (insertSettle f g t).Balanced (n + 1) ∧ (insertSettle f g t).color = .black := by
  unfold insertSettle
  split_ifs
  · grind [balanced_join_black, balanced_join_red, color_join]
  · cases t with
    | nil => cases red
    | node c l x r =>
      obtain rfl : c = .red := red
      have shape := eq_join g.side (rfl : (RbTree.node .red l x r).top = some x)
      grind [RbTree.color, balanced_join_red, balanced_join_black, color_join]

theorem Fits.of_red {f g : Frame α} {up : List (Frame α)} {n : Nat} (fits : Fits (f :: g :: up) n)
    (red : f.color = .red) : f.sibling.Balanced n ∧ f.sibling.color = .black ∧
      g.color = .black ∧ g.sibling.Balanced n ∧ Fits up (n + 1) := by
  obtain ⟨sibling, dark, outer⟩ := fits
  obtain ⟨black, black'⟩ := dark red
  rw [if_neg (by rw [red]; decide)] at outer
  obtain ⟨uncle, -, fits⟩ := outer
  have black' : g.color = .black := black'
  rw [if_pos black'] at fits
  exact ⟨sibling, black, black', uncle, fits⟩

theorem RbTree.Valid.paint {t : RbTree α} (valid : t.Valid) : (t.paint .black).Valid := by
  obtain ⟨-, n, balanced⟩ := valid
  exact balanced.valid_paint

theorem Color.eq_red_of_ne {c : Color} (bright : c ≠ .black) : c = .red := by
  cases c with
  | red => rfl
  | black => exact absurd rfl bright

theorem Color.eq_black_of_ne {c : Color} (dark : c ≠ .red) : c = .black := by
  cases c with
  | red => exact absurd rfl dark
  | black => rfl

/-- Rebalancing after an insertion gives a red-black tree, once its root is black. -/
theorem valid_insertColor {up : List (Frame α)} {t : RbTree α} {n : Nat} (balanced : t.Balanced n)
    (red : t.color = .red) (fits : Fits up n) : ((insertColor up t).paint .black).Valid := by
  fun_induction insertColor up t generalizing n with
  | case1 f g up t dark =>
    apply RbTree.Valid.paint
    exact valid_plug.mpr ⟨n, balanced, fits, by rw [above_cons, dark]; exact nofun⟩
  | case2 f g up t bright uncle ih =>
    obtain ⟨sibling, black, -, other, fits⟩ := fits.of_red (Color.eq_red_of_ne bright)
    grind [color_join, balanced_join_red, balanced_join_black, other.paint_black,
      RbTree.color_paint_black]
  | case3 f g up t bright uncle =>
    obtain ⟨sibling, black, -, other, fits⟩ := fits.of_red (Color.eq_red_of_ne bright)
    obtain ⟨settled, black'⟩ := balanced_insertSettle (g := g) balanced red sibling black other
      (Color.eq_black_of_ne uncle)
    exact (valid_plug_of settled fits black').paint
  | case4 up t short =>
    cases up with
    | nil => exact balanced.valid_paint
    | cons f up =>
      cases up with
      | cons g up => exact absurd rfl (short f g up)
      | nil =>
        apply RbTree.Valid.paint
        refine valid_plug.mpr ⟨n, balanced, fits, fun bright => ?_⟩
        exact absurd (fits.2.1 bright).2 nofun

/-! ## After a deletion -/

/-- The subtree `t` on side `s` of the node of `x` is short of one black node, and the root of the
other child is black: either the whole is short of one now, or it is balanced. -/
def eraseSettle (s : Side) (c : Color) (t : RbTree α) (x : α) (sibling : RbTree α) :
    RbTree α ⊕ RbTree α :=
  let near := sibling.kid s
  let far := sibling.kid s.flip
  match sibling.top, near.top with
  | none, _ => .inl (join s c t x sibling)
  | some y, z =>
    if near.color = .black ∧ far.color = .black then
      .inl (join s c t x (join s .red near y far))
    else if far.color = .black then
      match z with
      | none => .inl (join s c t x sibling)
      | some z =>
        .inr (join s c (join s .black t x (near.kid s)) z (join s .black (near.kid s.flip) y far))
    else .inr (join s c (join s .black t x near) y (far.paint .black))

/-- Rebalancing after a deletion, from the subtree that is short of one black node. -/
def eraseColor : List (Frame α) → RbTree α → RbTree α
  | [], t => t.paint .black
  | f :: up, t =>
    if t.color = .red then plug (f :: up) (t.paint .black)
    else
      match f.sibling.color, f.sibling.top with
      | .red, some y =>
        let inner :=
          match eraseSettle f.side .red t f.item (f.sibling.kid f.side) with
          | .inl u => u.paint .black
          | .inr u => u
        plug up (join f.side .black inner y (f.sibling.kid f.side.flip))
      | _, _ =>
        match eraseSettle f.side f.color t f.item f.sibling with
        | .inl u => eraseColor up u
        | .inr u => (plug up u).paint .black

theorem items_eraseSettle (s : Side) (c : Color) (t : RbTree α) (x : α) (sibling : RbTree α) :
    (Sum.elim id id (eraseSettle s c t x sibling)).items = (join s c t x sibling).items := by
  unfold eraseSettle
  cases full : sibling.top with
  | none => rfl
  | some y =>
    have shape := eq_join s full
    set near := sibling.kid s
    set far := sibling.kid s.flip
    rw [shape]
    dsimp only
    split_ifs with both single
    · exact items_join_congr _ _ _ _ _ _ rfl (items_join_congr _ _ _ _ _ _ rfl rfl)
    · cases full' : near.top with
      | none => rfl
      | some z =>
        rw [eq_join s full']
        cases s <;> simp [join, RbTree.items, Side.flip, RbTree.kid]
    · cases s <;> simp [join, RbTree.items]

/-- Rebalancing after a deletion leaves the items. -/
theorem items_eraseColor (up : List (Frame α)) (t : RbTree α) :
    (eraseColor up t).items = (plug up t).items := by
  induction up generalizing t with
  | nil => exact RbTree.items_paint _ _
  | cons f up ih =>
    have settled (c : Color) (sibling : RbTree α) :=
      items_eraseSettle f.side c t f.item sibling
    unfold eraseColor
    split_ifs with red
    · exact items_plug_congr _ (RbTree.items_paint _ _)
    rw [plug]
    split
    · rename_i y bright full
      apply items_plug_congr
      have shape := eq_join f.side full
      have inside := settled .red (f.sibling.kid f.side)
      have inner : (match eraseSettle f.side .red t f.item (f.sibling.kid f.side) with
          | .inl u => u.paint .black
          | .inr u => u).items = (join f.side .red t f.item (f.sibling.kid f.side)).items := by
        grind [RbTree.items_paint]
      rw [Frame.attach, items_join_congr _ _ .black _ _ _ inner rfl, items_rotate f.side .black .red
        (f.sibling.kid f.side) (f.sibling.kid f.side.flip) f.item f.color .red y t, ← bright,
        ← shape]
    · have outside := settled f.color f.sibling
      cases result : eraseSettle f.side f.color t f.item f.sibling with
      | inl u =>
        rw [result] at outside
        exact (ih u).trans (items_plug_congr up outside)
      | inr u =>
        rw [result] at outside
        exact (RbTree.items_paint _ _).trans (items_plug_congr up outside)

/-- A subtree is short of one black node: it would have `n + 1` on each path if its root, when
red, were black. -/
def Short (t : RbTree α) (n : Nat) : Prop :=
  if t.color = .red then (t.paint .black).Balanced (n + 1) else t.Balanced n

/-- What `eraseSettle` gives: a subtree that is short of one black node, in the place of one with
one more than `t` is short of, or a balanced one; its root has the colour the node had. -/
theorem balanced_eraseSettle {s : Side} {c : Color} {t : RbTree α} {x : α} {sibling : RbTree α}
    {n : Nat} (balanced : t.Balanced n) (other : sibling.Balanced (n + 1))
    (black : sibling.color = .black) :
    match eraseSettle s c t x sibling with
    | .inl u => u.color = c ∧ Short u (if c = .black then n + 1 else n)
    | .inr u => u.color = c ∧ u.Balanced (if c = .black then n + 2 else n + 1) := by
  obtain ⟨y, full⟩ := other.exists_top
  rw [eq_join s full, black, balanced_join_black] at other
  obtain ⟨inner, outer⟩ := other
  unfold eraseSettle
  simp only [full]
  by_cases both : (sibling.kid s).color = .black ∧ (sibling.kid s.flip).color = .black
  · rw [if_pos both]
    have settled : (join s .red (sibling.kid s) y (sibling.kid s.flip)).Balanced n :=
      (balanced_join_red ..).mpr ⟨both.1, both.2, inner, outer⟩
    refine ⟨color_join .., ?_⟩
    cases c <;> simp [Short, balanced_join_black, balanced, settled]
  rw [if_neg both]
  by_cases single : (sibling.kid s.flip).color = .black
  · rw [if_pos single]
    have bright : (sibling.kid s).color = .red := by
      cases color : (sibling.kid s).color with
      | red => rfl
      | black => exact absurd ⟨color, single⟩ both
    obtain ⟨z, full'⟩ := RbTree.exists_top_of_red bright
    rw [eq_join s full', bright, balanced_join_red] at inner
    grind [color_join, balanced_join]
  · rw [if_neg single]
    have painted := outer.paint_black (Color.eq_red_of_ne single)
    grind [color_join, balanced_join, RbTree.color_paint_black]

/-- Rebalancing after a deletion gives a red-black tree. -/
theorem valid_eraseColor {up : List (Frame α)} {t : RbTree α} {n : Nat} (short : Short t n)
    (fits : Fits up (n + 1)) : (eraseColor up t).Valid := by
  induction up generalizing t n with
  | nil =>
    unfold Short at short
    split_ifs at short
    · exact ⟨RbTree.color_paint_black t, n + 1, short⟩
    · exact short.valid_paint
  | cons f up ih =>
    unfold eraseColor
    unfold Short at short
    split_ifs at short ⊢ with red
    · exact valid_plug_of short fits (RbTree.color_paint_black t)
    obtain ⟨other, dark, fits⟩ := fits
    split
    · rename_i y bright full
      have black : f.color = .black := by
        cases color : f.color with
        | red => exact absurd (dark color).1 (by rw [bright]; decide)
        | black => rfl
      rw [if_pos black] at fits
      rw [eq_join f.side full, bright, balanced_join_red] at other
      obtain ⟨nearBlack, -, near, far⟩ := other
      have settled := balanced_eraseSettle (s := f.side) (c := .red) (x := f.item) short near
        nearBlack
      refine valid_plug_of ((balanced_join_black ..).mpr ⟨?_, far⟩) fits (color_join ..)
      grind [Short]
    · rename_i upright
      have black : f.sibling.color = .black := by
        cases color : f.sibling.color with
        | red =>
          obtain ⟨y, full⟩ := RbTree.exists_top_of_red color
          exact absurd full (upright y color)
        | black => rfl
      have settled := balanced_eraseSettle (s := f.side) (c := f.color) (x := f.item) short other
        black
      cases result : eraseSettle f.side f.color t f.item f.sibling with
      | inl u => grind
      | inr u =>
        rw [result] at settled
        apply RbTree.Valid.paint
        refine valid_plug.mpr ⟨_, settled.2, by split_ifs at fits ⊢ <;> exact fits, fun top => ?_⟩
        rw [settled.1]
        apply Color.eq_black_of_ne
        intro bright
        exact absurd (dark bright).2 (by rw [top]; decide)

/-! ## Deletion -/

/-- The path to the first item of a tree that is not empty, and the node there: its colour, its
item and its right child. -/
def firstPath : RbTree α → List (Frame α) → Option (List (Frame α) × Color × α × RbTree α)
  | .nil, _ => none
  | .node c .nil x r, up => some (up, c, x, r)
  | .node c l x r, up => firstPath l (⟨.left, c, x, r⟩ :: up)

/-- Close the gap a node of colour `c` leaves above the subtree `t`. -/
def fill (c : Color) (up : List (Frame α)) (t : RbTree α) : RbTree α :=
  if c = .black then eraseColor up t else plug up t

/-- Take the node at the end of a path out of a tree. A node with two children gives its place
and colour to its successor. -/
def erase (up : List (Frame α)) (c : Color) (l : RbTree α) (r : RbTree α) : RbTree α :=
  match l.top, firstPath r [] with
  | none, _ => fill c up r
  | _, none => fill c up l
  | _, some (path, d, y, rest) => fill d (path ++ ⟨.right, c, y, l⟩ :: up) rest

theorem firstPath_spec {t : RbTree α} {up path : List (Frame α)} {d : Color} {y : α}
    {rest : RbTree α} (found : firstPath t up = some (path, d, y, rest)) :
    ∃ low, path = low ++ up ∧ before low = [] ∧ plug low (.node d .nil y rest) = t := by
  fun_induction firstPath t up with
  | case1 => cases found
  | case2 c x r up =>
    obtain ⟨rfl, rfl, rfl, rfl⟩ := found
    exact ⟨[], rfl, rfl, rfl⟩
  | case3 c l x r up _ ih =>
    obtain ⟨low, rfl, first, shape⟩ := ih found
    refine ⟨low ++ [⟨.left, c, x, r⟩], by simp, ?_, ?_⟩
    · rw [before_append, first]
      rfl
    · rw [plug_append, shape]
      rfl

theorem firstPath_ne_none {t : RbTree α} (full : t ≠ .nil) (up : List (Frame α)) :
    firstPath t up ≠ none := by
  fun_induction firstPath t up with
  | case1 => exact absurd rfl full
  | case2 => simp
  | case3 c l x r up nonempty ih => exact ih nonempty

theorem items_fill (c : Color) (up : List (Frame α)) (t : RbTree α) :
    (fill c up t).items = (plug up t).items := by
  unfold fill
  split_ifs
  · exact items_eraseColor up t
  · rfl

/-- Without a black node that has one child at most, the tree is short of one there. -/
theorem short_of_valid {s : Side} {up : List (Frame α)} {t : RbTree α} {x : α}
    (valid : (plug up (join s .black .nil x t)).Valid) : ∃ n, Short t n ∧ Fits up (n + 1) := by
  obtain ⟨n, balanced, fits, -⟩ := valid_plug.mp valid
  cases n with
  | zero => cases s <;> simp [join, RbTree.Balanced] at balanced
  | succ n =>
    rw [balanced_join_black] at balanced
    refine ⟨n, ?_, fits⟩
    unfold Short
    split_ifs with red
    · exact balanced.2.paint_black red
    · exact balanced.2

/-- Closing the gap a node with one child leaves gives a red-black tree. -/
theorem valid_fill {s : Side} {c : Color} {up : List (Frame α)} {t : RbTree α} {x : α}
    (valid : (plug up (join s c .nil x t)).Valid) : (fill c up t).Valid := by
  unfold fill
  cases c with
  | red =>
    obtain ⟨n, balanced, fits, dark⟩ := valid_plug.mp valid
    grind [balanced_join_red, valid_plug_of]
  | black =>
    obtain ⟨n, short, fits⟩ := short_of_valid valid
    exact valid_eraseColor short fits

theorem valid_plug_item {up : List (Frame α)} {c : Color} {l r : RbTree α} {x : α}
    (valid : (plug up (.node c l x r)).Valid) (y : α) : (plug up (.node c l y r)).Valid := by
  obtain ⟨n, balanced, fits, dark⟩ := valid_plug.mp valid
  refine valid_plug.mpr ⟨n, ?_, fits, dark⟩
  cases c <;> exact balanced

/-- Taking a node out of a red-black tree gives a red-black tree. -/
theorem valid_erase {up : List (Frame α)} {c : Color} {l r : RbTree α} {x : α}
    (valid : (plug up (.node c l x r)).Valid) : (erase up c l r).Valid := by
  unfold erase
  cases left : l.top with
  | none =>
    obtain rfl := RbTree.top_eq_none.mp left
    exact valid_fill (s := .left) valid
  | some z =>
    cases found : firstPath r [] with
    | none =>
      obtain rfl : r = .nil := by
        by_contra full
        exact firstPath_ne_none full [] found
      exact valid_fill (s := .right) valid
    | some result =>
      obtain ⟨path, d, y, rest⟩ := result
      obtain ⟨low, rfl, -, rfl⟩ := firstPath_spec found
      have moved := valid_plug_item valid y
      apply valid_fill (s := .left) (x := y)
      rwa [List.append_nil, plug_append]

/-- Taking a node out leaves the other items in order. -/
theorem items_erase (up : List (Frame α)) (c : Color) (l r : RbTree α) :
    (erase up c l r).items = before up ++ (l.items ++ r.items ++ after up) := by
  unfold erase
  cases left : l.top with
  | none =>
    obtain rfl := RbTree.top_eq_none.mp left
    rw [items_fill, items_plug]
    rfl
  | some z =>
    cases found : firstPath r [] with
    | none => grind [firstPath_ne_none, items_fill, items_plug, RbTree.items]
    | some result =>
      obtain ⟨path, d, y, rest⟩ := result
      obtain ⟨low, rfl, first, rfl⟩ := firstPath_spec found
      rw [items_fill, List.append_nil, plug_append, plug, items_plug, Frame.attach]
      simp [join, RbTree.items, items_plug, first]

/-! ## Search trees -/

/-- A binary search tree: all keys on the left of a node are smaller than its own, all on the
right are greater. -/
def RbTree.Search (key : α → Int) : RbTree α → Prop
  | .nil => True
  | .node _ l x r => l.Search key ∧ r.Search key ∧ (∀ y ∈ l.items, key y < key x) ∧
      ∀ y ∈ r.items, key x < key y

/-- In a search tree the items are in the order of their keys. -/
theorem search_iff (key : α → Int) (t : RbTree α) :
    t.Search key ↔ t.items.Pairwise (key · < key ·) := by
  induction t with
  | nil => simp [RbTree.Search, RbTree.items]
  | node c l x r left right =>
    rw [RbTree.Search, RbTree.items, List.pairwise_append, List.pairwise_cons, left, right]
    constructor
    · grind
    · rintro ⟨first, ⟨beyond, second⟩, apart⟩
      exact ⟨first, second, fun y member => apart y member x List.mem_cons_self, beyond⟩

theorem exists_path {t : RbTree α} {x : α} (member : x ∈ t.items) :
    ∃ path c l r, plug path (.node c l x r) = t := by
  induction t with
  | nil => cases member
  | node c l y r left right =>
    rw [RbTree.items, List.mem_append, List.mem_cons] at member
    rcases member with inside | rfl | inside
    · obtain ⟨path, d, l', r', shape⟩ := left inside
      refine ⟨path ++ [⟨.left, c, y, r⟩], d, l', r', ?_⟩
      rw [plug_append, shape]
      rfl
    · exact ⟨[], c, l, r, rfl⟩
    · obtain ⟨path, d, l', r', shape⟩ := right inside
      refine ⟨path ++ [⟨.right, c, y, l⟩], d, l', r', ?_⟩
      rw [plug_append, shape]
      rfl

theorem length_path_le (path : List (Frame α)) (t : RbTree α) :
    path.length + t.items.length ≤ (plug path t).items.length := by
  induction path generalizing t with
  | nil => simp [plug]
  | cons f path ih =>
    have longer : t.items.length + 1 ≤ (f.attach t).items.length := by
      obtain ⟨s, c, x, sibling⟩ := f
      cases s <;> simp [Frame.attach, join, RbTree.items]
    have rest := ih (f.attach t)
    simp only [plug, List.length_cons]
    omega

end Dmm.RedBlack
