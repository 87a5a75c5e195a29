import Dmm.EprbTree.Code

/-!
# Rotations and recolouring of the epoll tree

What `__ep_rb_rotate_*`, `ep_rb_insert_color` and `__ep_rb_erase_color` do to a tree in memory:
they return, and memory then holds the tree that `RedBlack.insertColor` and
`RedBlack.eraseColor` make of it. The loops go up the path above the node they start from, so
as many rounds as the path has nodes are enough.
-/

namespace Dmm.EprbTree

open RedBlack

variable {α : Type} [DecidableEq α] {h : Heap α} {path : List (Frame α)}

/-! ## Rotations -/

/-- The link that is written is the one that leads to the node. -/
theorem replaceChild_eq {x : α} {up : Option α} (held : HeldPath h path (some x) up)
    (outside : x ∉ around path) (s : Side) (new : Option α) :
    replaceChild s (parentAt none path) x new h = h.link path new := by
  cases path with
  | nil => rfl
  | cons f path =>
    obtain ⟨-, -, near, far, -⟩ := held
    have other : f.sibling.top ≠ some x := by
      intro same
      exact outside (by simp [around, RbTree.top_mem same])
    simp only [replaceChild, parentAt, Heap.link]
    by_cases same : f.side = s
    · rw [if_pos (same ▸ near), same]
    · obtain rfl := Side.eq_flip_of_ne (Ne.symm same)
      rw [if_neg (by rw [far]; exact other), Side.flip_flip]

/-- The writes of a rotation of `x` below a path, `y` being the child that comes up and `b` the
one that changes its parent. -/
def rotated (path : List (Frame α)) (s : Side) (x y : α) (b : Option α) (h : Heap α) : Heap α :=
  (((((h.setChild s.flip x b).reparent b (some x)).setParent y (parentAt none path)).link path
    (some y)).setChild s y (some x)).setParent x (some y)

/-- The distinct nodes of a rotation. -/
structure Turn (path : List (Frame α)) (x y : α) (a b e : RbTree α) : Prop where
  ne : x ≠ y
  lower : x ∉ a.items ∧ x ∉ b.items ∧ x ∉ e.items
  upper : y ∉ a.items ∧ y ∉ b.items ∧ y ∉ e.items
  apart : ∀ z ∈ b.items, z ∉ a.items ∧ z ∉ e.items
  nodup : b.items.Nodup
  outside : ∀ z ∈ around path, z ≠ x ∧ z ≠ y ∧ z ∉ a.items ∧ z ∉ b.items ∧ z ∉ e.items

omit [DecidableEq α] in
/-- The nodes of two subtrees below each other are distinct. -/
theorem turn_of_nodup {s : Side} {c d : Color} {a b e : RbTree α} {x y : α}
    (nodup : (around path ++ (join s c a x (join s d b y e)).items).Nodup) :
    Turn path x y a b e := by
  have listed : (around path ++ x :: ((y :: (e.items ++ b.items)) ++ a.items)).Nodup := by
    refine ((List.Perm.append_left _ ((items_join_perm ..).trans ?_)).nodup_iff).mp nodup
    exact ((items_join_perm ..).append_right _).cons x
  simp only [List.cons_append, List.nodup_append, List.nodup_cons, List.mem_append, List.mem_cons,
    not_or] at listed
  obtain ⟨-, ⟨⟨xy, ⟨xe, xb⟩, xa⟩, ⟨⟨ye, yb⟩, ya⟩, ⟨-, bb, eb⟩, -, ea⟩, outside⟩ := listed
  refine ⟨xy, ⟨xa, xb, xe⟩, ⟨ya, yb, ye⟩, fun z member => ⟨fun inside => ?_, fun inside => ?_⟩, bb,
    fun z member => ⟨?_, ?_, fun inside => ?_, fun inside => ?_, fun inside => ?_⟩⟩
  · exact ea z (.inr member) z inside rfl
  · exact eb z inside z member rfl
  · exact outside z member x (.inl rfl)
  · exact outside z member y (.inr (.inl rfl))
  · exact outside z member z (.inr (.inr (.inr inside))) rfl
  · exact outside z member z (.inr (.inr (.inl (.inr inside)))) rfl
  · exact outside z member z (.inr (.inr (.inl (.inl inside)))) rfl

theorem same_rotated {s : Side} {x y z : α} {b : Option α} (away : z ≠ x) (away' : z ≠ y)
    (other : b ≠ some z) (outside : z ∉ around path) : h.Same (rotated path s x y b h) z :=
  ((((Heap.same_setChild away _ _).trans (Heap.same_reparent other _)).trans
    (Heap.same_setParent away' _)).trans (Heap.same_link outside _)).trans
    ((Heap.same_setChild away' _ _).trans (Heap.same_setParent away _))

/-- On the path a rotation writes the pointer to the node that comes up. -/
theorem same_rotated_link {s : Side} {x y z : α} {b : Option α} (away : z ≠ x) (away' : z ≠ y)
    (other : b ≠ some z) : (h.link path (some y)).Same (rotated path s x y b h) z :=
  ((((Heap.same_setChild away _ _).trans (Heap.same_reparent other _)).trans
    (Heap.same_setParent away' _)).link path _).trans
    ((Heap.same_setChild away' _ _).trans (Heap.same_setParent away _))

/-- A rotation makes these writes. -/
theorem rotate_eq {s : Side} {c d : Color} {a b e : RbTree α} {x y : α}
    (focus : Focus h path (join s c a x (join s d b y e))) :
    rotate s x h = some (rotated path s x y b.top h) := by
  have turn := turn_of_nodup focus.apart
  obtain ⟨-, parent, -, far, -, second⟩ := (held_join ..).mp focus.sub
  obtain ⟨-, -, near', -⟩ := (held_join ..).mp second
  rw [top_join] at far
  have target : b.top ≠ some x ∧ ∀ z ∈ around path, b.top ≠ some z :=
    ⟨fun same => turn.lower.2.1 (RbTree.top_mem same),
      fun z member same => (turn.outside z member).2.2.2.1 (RbTree.top_mem same)⟩
  set h₁ := h.setChild s.flip x b.top with first
  set h₂ := h₁.reparent b.top (some x) with second
  set h₃ := h₂.setParent y (parentAt none path) with third
  have moved : h₁.child s y = b.top :=
    ((Heap.same_setChild (Ne.symm turn.ne) _ _).child s).trans near'
  have kept : h₂.parent x = parentAt none path :=
    (Heap.same_reparent target.1 _).parent.trans parent
  have kept' : h₃.parent x = parentAt none path := (Heap.same_setParent turn.ne _).parent.trans kept
  have held : HeldPath h₃ path (some x) none := by
    have above := focus.above
    rw [top_join] at above
    refine above.congr fun z member => ?_
    obtain ⟨away, away', -⟩ := turn.outside z member
    exact ((Heap.same_setChild away _ _).trans (Heap.same_reparent (target.2 z member) _)).trans
      (Heap.same_setParent away' _)
  have outside : x ∉ around path := fun member => (turn.outside x member).1 rfl
  simp only [rotate, rotated]
  grind [replaceChild_eq]

/-- A rotation in memory is a rotation of the tree. -/
theorem rotate_focus {s : Side} {c d : Color} {a b e : RbTree α} {x y : α}
    (focus : Focus h path (join s c a x (join s d b y e))) :
    ∃ h', rotate s x h = some h' ∧ Focus h' path (join s d (join s c a x b) y e) := by
  refine ⟨_, rotate_eq focus, ?_⟩
  have turn := turn_of_nodup focus.apart
  obtain ⟨color, parent, near, far, first, second⟩ := (held_join ..).mp focus.sub
  obtain ⟨color', parent', near', far', third, fourth⟩ := (held_join ..).mp second
  have ne := Ne.symm turn.ne
  have ahead (z : α) (top : b.top = some z) : z ∈ b.items := RbTree.top_mem top
  have beyond (z : α) (here : z = x ∨ z = y) : z ∉ around path := by
    intro member
    obtain ⟨away, away', -⟩ := turn.outside z member
    exact here.elim away away'
  have target (z : α) (inside : z ∉ b.items) : b.top ≠ some z := fun same => inside (ahead z same)
  set h₁ := h.setChild s.flip x b.top with one
  set h₂ := h₁.reparent b.top (some x) with two
  set h₃ := h₂.setParent y (parentAt none path) with three
  set h₄ := h₃.link path (some y) with four
  set h₅ := h₄.setChild s y (some x) with five
  have result : rotated path s x y b.top h = h₅.setParent x (some y) := rfl
  -- after the first write `x` is only given its parent, and `y` after two more its child
  have lower : h₁.Same h₅ x :=
    (((Heap.same_reparent (target x turn.lower.2.1) _).trans
      (Heap.same_setParent turn.ne _)).trans (Heap.same_link (beyond x (.inl rfl)) _)).trans
      (Heap.same_setChild turn.ne _ _)
  have upper : h.Same h₂ y :=
    (Heap.same_setChild ne _ _).trans (Heap.same_reparent (target y turn.upper.2.1) _)
  have linked : h₃.Same h₄ y := Heap.same_link (beyond y (.inr rfl)) _
  have last : h₅.Same (h₅.setParent x (some y)) y := Heap.same_setParent ne _
  have colors : h₅.color = h.color := by
    have joined : h₂.color = h.color := by cases top : b.top <;> simp [two, top] <;> rfl
    exact (show h₄.color = h₂.color by cases path <;> rfl).trans joined
  refine focus.replace (fun z member => ?_) ?_ ?_ ?_
  · obtain ⟨away, away', -, inside, -⟩ := turn.outside z member
    rw [top_join]
    exact same_rotated_link away away' (target z inside)
  · rw [top_join]
    have roots : h₃.root = h.root := Heap.reparent_root h₁ (some x) b.top
    exact Heap.link_root roots path _
  · rw [held_join, held_join, top_join, result]
    refine ⟨(congrFun colors y).trans color', ?_, ?_, ?_,
      ⟨(congrFun colors x).trans color, Heap.setParent_parent .., ?_, ?_, ?_, ?_⟩, ?_⟩
    · exact last.parent.trans (linked.parent.trans (Heap.setParent_parent ..))
    · exact (last.child s).trans (Heap.setChild_child ..)
    · exact (last.child s.flip).trans ((Heap.setChild_child_flip ..).trans
        ((linked.child s.flip).trans ((upper.child s.flip).trans far')))
    · exact (lower.child s).trans ((Heap.setChild_flip_child ..).trans near)
    · exact (lower.child s.flip).trans (Heap.setChild_child ..)
    · refine first.congr fun z member => same_rotated ?_ ?_ (target z ?_) ?_
      · rintro rfl
        exact turn.lower.1 member
      · rintro rfl
        exact turn.upper.1 member
      · exact fun inside => (turn.apart z inside).1 member
      · exact fun outer => (turn.outside z outer).2.2.1 member
    · have away (z : α) (member : z ∈ b.items) : z ≠ x ∧ z ≠ y ∧ z ∉ around path := by
        refine ⟨?_, ?_, fun outer => (turn.outside z outer).2.2.2.1 member⟩
        · rintro rfl
          exact turn.lower.2.1 member
        · rintro rfl
          exact turn.upper.2.1 member
      have moved : Held h₂ b (some x) :=
        (third.congr fun z member => Heap.same_setChild (away z member).1 _ _).reparent
          turn.nodup (some x)
      refine moved.congr fun z member => ?_
      obtain ⟨apart, apart', outer⟩ := away z member
      exact ((Heap.same_setParent apart' _).trans (Heap.same_link outer _)).trans
        ((Heap.same_setChild apart' _ _).trans (Heap.same_setParent apart _))
    · refine fourth.congr fun z member => same_rotated ?_ ?_ (target z ?_) ?_
      · rintro rfl
        exact turn.lower.2.2 member
      · rintro rfl
        exact turn.upper.2.2 member
      · exact fun inside => (turn.apart z inside).2 member
      · exact fun outer => (turn.outside z outer).2.2.2.2 member
  · rw [items_rotate s d c b e x c d y a]
    exact focus.apart

/-! ## After an insertion -/

/-- Comparing with the left child finds the side of a subtree. -/
theorem side_eq {f : Frame α} {t : RbTree α} (focus : Focus h (f :: path) t)
    (other : f.sibling.top ≠ t.top) :
    (if h.child .left f.item = t.top then Side.left else .right) = f.side := by
  obtain ⟨-, -, near, far⟩ := focus.frame
  cases side : f.side with
  | left =>
    rw [side] at near
    rw [if_pos near]
  | right =>
    rw [side] at far
    have far : h.child .left f.item = f.sibling.top := far
    rw [if_neg (by rw [far]; exact other)]

theorem blackenRoot_holds {t : RbTree α} {x : α} (holds : Holds h t) (full : t.top = some x) :
    ∃ h', blackenRoot h = some h' ∧ Holds h' (t.paint .black) := by
  have focus : Focus h [] t := holds
  refine ⟨h.setColor x .black, ?_, focus.setColor full .black⟩
  simp [blackenRoot, holds.root, full]

theorem insertColor_black {f : Frame α} {t : RbTree α} {x : α} (focus : Focus h (f :: path) t)
    (full : t.top = some x) (black : f.color = .black) (rounds : Nat) :
    ∃ h', insertColor (rounds + 1) x h = some h' ∧
      Holds h' ((plug (f :: path) t).paint .black) := by
  obtain ⟨root, -, top⟩ := exists_top_plug f path t
  obtain ⟨h', ran, holds⟩ := blackenRoot_holds focus top
  refine ⟨h', ?_, holds⟩
  have parent : h.parent x = some f.item := (focus.top full).2.1
  grind [focus.frame, insertColor]

theorem insertRound_red {f g : Frame α} {t : RbTree α} {x y : α}
    (focus : Focus h (f :: g :: path) t) (full : g.sibling.top = some y)
    (red : g.sibling.color = .red) :
    ∃ h', insertRound g.side x f.item g.item h = some (g.item, h') ∧
      Focus h' path (join g.side .red (join f.side .black t f.item f.sibling) g.item
        (g.sibling.paint .black)) := by
  have lower : Focus h (g :: path) (join f.side f.color t f.item f.sibling) := focus
  have painted := lower.setColor (top_join ..) .black
  rw [paint_join] at painted
  have upper : Focus ((h.setColor f.item .black).setColor y .black) path
      (join g.side g.color (join f.side .black t f.item f.sibling) g.item
        (g.sibling.paint .black)) := painted.setSiblingColor full .black
  have painted' := upper.setColor (top_join ..) .red
  grind [paint_join, lower.frame, lower.across.top, insertRound]

/-- The end of a round, both nodes above being on one side. -/
theorem insertOuter_focus {s : Side} {c d : Color} {y z x : α} {m uncle t : RbTree α}
    (focus : Focus h (⟨s, c, y, m⟩ :: ⟨s, d, z, uncle⟩ :: path) t) (full : t.top = some x) :
    ∃ h', insertOuter s x h = some (x, h') ∧
      Focus h' path (join s .black t y (join s .red m z uncle)) := by
  have lower : Focus h (⟨s, d, z, uncle⟩ :: path) (join s c t y m) := focus
  have painted := lower.setColor (top_join ..) .black
  rw [paint_join] at painted
  have upper : Focus (h.setColor y .black) path (join s d (join s .black t y m) z uncle) := painted
  have painted' := upper.setColor (top_join ..) .red
  rw [paint_join, ← join_flip, ← join_flip s .black] at painted'
  obtain ⟨h', ran, turned⟩ := rotate_focus painted'
  rw [join_flip, join_flip] at turned
  refine ⟨h', ?_, turned⟩
  have parent : h.parent x = some y := (focus.top full).2.1
  have parent' : (h.setColor y .black).parent y = some z := focus.frame.2.1
  simp [insertOuter, parent, parent', ran]

/-- A round with an uncle that is not red settles the tree and leaves a node below a black
one. -/
theorem insertTurn_settle {f g : Frame α} {t : RbTree α} {x : α}
    (focus : Focus h (f :: g :: path) t) (full : t.top = some x) (red : f.color = .red)
    (red' : t.color = .red) :
    ∃ x' h' f' t', insertTurn g.side x f.item h = some (x', h') ∧ t'.top = some x' ∧
      f'.color = .black ∧ Focus h' (f' :: path) t' ∧ f'.attach t' = insertSettle f g t := by
  obtain ⟨side, c, y, m⟩ := f
  obtain ⟨s, d, z, uncle⟩ := g
  obtain rfl : c = .red := red
  obtain ⟨-, -, near, far⟩ := focus.frame
  dsimp only at near far
  by_cases same : side = s
  · subst same
    have outer : ¬ h.child side.flip y = some x := by
      rw [far]
      exact focus.sibling_ne full
    obtain ⟨h', ran, turned⟩ := insertOuter_focus focus full
    refine ⟨x, h', ⟨side, .black, y, join side .red m z uncle⟩, t, ?_, full, rfl, turned, ?_⟩
    · rw [insertTurn, if_neg outer, ran]
    · simp [insertSettle, Frame.attach]
  · obtain rfl := Side.eq_flip_of_ne same
    have inner : h.child s.flip y = some x := near.trans full
    have shape := eq_join s full
    rw [red'] at shape
    have lower : Focus h (⟨s, d, z, uncle⟩ :: path) (join s.flip .red t y m) := focus
    rw [join_flip, shape] at lower
    obtain ⟨h₁, ran₁, turned₁⟩ := rotate_focus lower
    have raised : Focus h₁ (⟨s, .red, x, t.kid s.flip⟩ :: ⟨s, d, z, uncle⟩ :: path)
        (join s .red m y (t.kid s)) := turned₁
    obtain ⟨h', ran, turned⟩ := insertOuter_focus raised (top_join ..)
    refine ⟨y, h', ⟨s, .black, x, join s .red (t.kid s.flip) z uncle⟩, join s .red m y (t.kid s),
      ?_, top_join .., rfl, turned, ?_⟩
    · simp [insertTurn, inner, ran₁, ran]
    · cases t with
      | nil => cases full
      | node c' l w r =>
        obtain rfl := Option.some.inj full
        simp [insertSettle, Frame.attach]

theorem insertColor_red {f g : Frame α} {t : RbTree α} {x : α}
    (focus : Focus h (f :: g :: path) t) (full : t.top = some x) (red : f.color = .red)
    (rounds : Nat) : insertColor (rounds + 1) x h =
      (insertRound g.side x f.item g.item h).bind fun next => insertColor rounds next.1 next.2 := by
  have below : h.root ≠ some x := full ▸ focus.root_ne
  have parent : h.parent x = some f.item := (focus.top full).2.1
  obtain ⟨color, grand, -⟩ := focus.frame
  have upper : Focus h (g :: path) (f.attach t) := focus
  have top : (f.attach t).top = some f.item := top_join ..
  grind [side_eq, upper.sibling_ne, insertColor, parentAt]

/-- `ep_rb_insert_color` rebalances a tree with a red node that may be below a red one. -/
theorem insertColor_holds {t : RbTree α} {x : α} {n rounds : Nat} (focus : Focus h path t)
    (full : t.top = some x) (red : t.color = .red) (fits : Fits path n)
    (enough : path.length < rounds) :
    ∃ h', insertColor rounds x h = some h' ∧
      Holds h' ((RedBlack.insertColor path t).paint .black) := by
  obtain ⟨rounds, rfl⟩ := Nat.exists_eq_add_of_lt enough
  fun_induction RedBlack.insertColor path t generalizing h x n rounds with
  | case1 f g up t dark => exact insertColor_black focus full dark _
  | case2 f g up t bright uncle ih =>
    have bright := Color.eq_red_of_ne bright
    obtain ⟨y, full'⟩ := RbTree.exists_top_of_red uncle
    obtain ⟨h₁, ran, risen⟩ := insertRound_red (x := x) focus full' uncle
    obtain ⟨-, -, -, -, fits⟩ := fits.of_red bright
    obtain ⟨h', later, holds⟩ := ih risen (top_join ..) (color_join ..) fits (rounds + 1) (by omega)
    grind [insertColor_red]
  | case3 f g up t bright uncle =>
    have bright := Color.eq_red_of_ne bright
    obtain ⟨x', h₁, f', t', ran, full', black, settled, shape⟩ :=
      insertTurn_settle focus full bright red
    obtain ⟨h', later, holds⟩ := insertColor_black settled full' black (up.length + 1 + rounds)
    refine ⟨h', ?_, by rw [← shape]; exact holds⟩
    have turns : insertRound g.side x f.item g.item h = insertTurn g.side x f.item h := by
      have upper : Focus h (g :: up) (f.attach t) := focus
      grind [upper.frame, insertRound, upper.across.top]
    grind [insertColor_red]
  | case4 up t short =>
    cases up with
    | nil =>
      obtain ⟨h', ran, holds⟩ := blackenRoot_holds focus full
      refine ⟨h', ?_, holds⟩
      have root : h.root = some x := focus.root.trans full
      simp [insertColor, root, ran]
    | cons f up =>
      cases up with
      | cons g up => exact absurd rfl (short f g up)
      | nil =>
        have black : f.color = .black := by
          apply Color.eq_black_of_ne
          intro bright
          exact Color.noConfusion (fits.2.1 bright).2
        exact insertColor_black focus full black _

/-! ## After a deletion -/

omit [DecidableEq α] in
/-- A null pointer or a black node is the root of a black subtree. -/
theorem isBlack_eq {t : RbTree α} (focus : Focus h path t) :
    isBlack h t.top = decide (t.color = .black) := by
  cases full : t.top with
  | none =>
    obtain rfl := RbTree.top_eq_none.mp full
    rfl
  | some x => simp [isBlack, (focus.top full).1]

theorem blacken_focus {t : RbTree α} (focus : Focus h path t) :
    Focus (blacken h t.top) path (t.paint .black) := by
  cases full : t.top with
  | none =>
    obtain rfl := RbTree.top_eq_none.mp full
    exact focus
  | some x => exact focus.setColor full .black

theorem eraseSibling_black {f : Frame α} {t : RbTree α} {w : α} (focus : Focus h (f :: path) t)
    (full : f.sibling.top = some w) (black : f.sibling.color = .black) :
    eraseSibling f.side f.item h = some (w, h) := by
  grind [focus.frame, focus.across.top, eraseSibling]

/-- A red sibling comes up, and its near child is the new sibling. -/
theorem eraseSibling_red {f : Frame α} {t : RbTree α} {w w' : α} (focus : Focus h (f :: path) t)
    (full : f.sibling.top = some w) (red : f.sibling.color = .red)
    (full' : (f.sibling.kid f.side).top = some w') :
    ∃ h', eraseSibling f.side f.item h = some (w', h') ∧
      Focus h' (⟨f.side, .red, f.item, f.sibling.kid f.side⟩ ::
        ⟨f.side, .black, w, f.sibling.kid f.side.flip⟩ :: path) t := by
  have far : h.child f.side.flip f.item = some w := focus.frame.2.2.2.trans full
  have color : h.color w = .red := (focus.across.top full).1.trans red
  have painted : Focus (h.setColor w .black) path
      (join f.side f.color t f.item (f.sibling.paint .black)) := focus.setSiblingColor full .black
  have painted' := painted.setColor (top_join ..) .red
  rw [paint_join, eq_join f.side full, paint_join] at painted'
  obtain ⟨h', ran, turned⟩ := rotate_focus painted'
  have lowered : Focus h' (⟨f.side, .red, f.item, f.sibling.kid f.side⟩ ::
      ⟨f.side, .black, w, f.sibling.kid f.side.flip⟩ :: path) t := turned
  simp only [eraseSibling]
  grind [lowered.frame]

/-- The far child of a black sibling that has a red child is made red. -/
theorem eraseFar_focus {s : Side} {c : Color} {p w : α} {t near far : RbTree α}
    (focus : Focus h (⟨s, c, p, join s .black near w far⟩ :: path) t)
    (bright : ¬ (near.color = .black ∧ far.color = .black)) :
    ∃ v h' a b, eraseFar s p w h = some (v, h') ∧ b.color = .red ∧
      Focus h' (⟨s, c, p, join s .black a v b⟩ :: path) t ∧
      eraseSettle s c t p (join s .black near w far) =
        .inr (join s c (join s .black t p a) v (b.paint .black)) := by
  have beside : Focus h (⟨s.flip, c, p, t⟩ :: path) (join s .black near w far) := focus.across
  obtain ⟨-, -, inner, outer⟩ := beside.node s
  have lower : Focus h (⟨s, .black, w, far⟩ :: ⟨s.flip, c, p, t⟩ :: path) near := beside
  have blackness : isBlack h (h.child s.flip w) = decide (far.color = .black) :=
    outer ▸ isBlack_eq lower.across
  by_cases single : far.color = .black
  · have red : near.color = .red := by
      apply Color.eq_red_of_ne
      intro black
      exact bright ⟨black, single⟩
    obtain ⟨z, full⟩ := RbTree.exists_top_of_red red
    -- the near child is painted black and the sibling red, and the near child comes up
    have painted : Focus (h.setColor z .black) (⟨s.flip, c, p, t⟩ :: path)
        (join s .black (near.paint .black) w far) := lower.setColor full .black
    have painted' := painted.setColor (top_join ..) .red
    rw [paint_join, eq_join s full, paint_join, ← join_flip, ← join_flip s .black] at painted'
    obtain ⟨h', ran, turned⟩ := rotate_focus painted'
    rw [join_flip, join_flip] at turned
    have back := turned.across
    dsimp only at back
    rw [Side.flip_flip] at back
    refine ⟨z, h', near.kid s, join s .red (near.kid s.flip) w far, ?_, color_join .., back, ?_⟩
    · simp only [blacken, eraseFar]
      grind [back.frame, top_join]
    · simp [eraseSettle, red, single, full]
  · refine ⟨w, h, near, far, ?_, Color.eq_red_of_ne single, focus, ?_⟩
    · simp [eraseFar, blackness, single]
    · simp [eraseSettle, single]

/-- The last round: the sibling comes up between the node and its own far child. -/
theorem eraseLast_focus {s : Side} {c : Color} {p w : α} {t near far : RbTree α}
    (focus : Focus h (⟨s, c, p, join s .black near w far⟩ :: path) t)
    (bright : ¬ (near.color = .black ∧ far.color = .black)) :
    ∃ h' u, eraseLast s p w h = some h' ∧ Focus h' path u ∧
      eraseSettle s c t p (join s .black near w far) = .inr u := by
  obtain ⟨v, h₁, a, b, ran, red, focus₁, settled⟩ := eraseFar_focus focus bright
  obtain ⟨q, full⟩ := RbTree.exists_top_of_red red
  have painted := focus₁.setSiblingColor (top_join ..) c
  rw [paint_join] at painted
  have upper : Focus (h₁.setColor v c) path (join s c t p (join s c a v b)) := painted
  have painted' := upper.setColor (top_join ..) .black
  rw [paint_join] at painted'
  set h₂ := (h₁.setColor v c).setColor p .black
  have lower : Focus h₂ (⟨s, .black, p, join s c a v b⟩ :: path) t := painted'
  have inner : Focus h₂ (⟨s, c, v, b⟩ :: ⟨s.flip, .black, p, t⟩ :: path) a := lower.across
  have outer : Focus (h₂.setColor q .black) (⟨s.flip, .black, p, t⟩ :: path)
      (join s c a v (b.paint .black)) := inner.setSiblingColor full .black
  have back := outer.across
  dsimp only at back
  rw [Side.flip_flip] at back
  obtain ⟨h', turns, turned⟩ := rotate_focus back
  grind [focus₁.frame, inner.frame, inner.across.top, eraseLast]

omit [DecidableEq α] in
/-- What the source asks about the children of a node, on whichever side. -/
theorem isBlack_kid {t : RbTree α} {w : α} (focus : Focus h path t) (full : t.top = some w)
    (s : Side) : isBlack h (h.child s w) = decide ((t.kid s).color = .black) := by
  have shape := eq_join s full
  rw [shape] at focus
  have lower : Focus h (⟨s, t.color, w, t.kid s.flip⟩ :: path) (t.kid s) := focus
  rw [(focus.node s).2.2.1]
  exact isBlack_eq lower

/-- A round whose sibling is black: with two black nephews the sibling becomes red and the node
above is short of a black one, otherwise it is the last round. -/
theorem eraseColor_settle {f : Frame α} {t : RbTree α} {w : α} (focus : Focus h (f :: path) t)
    (full : f.sibling.top = some w) (black : f.sibling.color = .black) :
    (isBlack h (h.child .left w) ∧ isBlack h (h.child .right w)) ∧
        (∃ u, eraseSettle f.side f.color t f.item f.sibling = .inl u ∧ u.top = some f.item ∧
          u.color = f.color ∧ Focus (h.setColor w .red) path u) ∨
      ¬ (isBlack h (h.child .left w) ∧ isBlack h (h.child .right w)) ∧
        ∃ h' u, eraseLast f.side f.item w h = some h' ∧ Focus h' path u ∧
          eraseSettle f.side f.color t f.item f.sibling = .inr u := by
  have nephews : (isBlack h (h.child .left w) ∧ isBlack h (h.child .right w)) ↔
      (f.sibling.kid f.side).color = .black ∧ (f.sibling.kid f.side.flip).color = .black := by
    simp only [Side.flip]
    grind [isBlack_kid, focus.across]
  have shape := eq_join f.side full
  rw [black] at shape
  rw [nephews]
  by_cases both : (f.sibling.kid f.side).color = .black ∧ (f.sibling.kid f.side.flip).color = .black
  · refine .inl ⟨both, join f.side f.color t f.item (f.sibling.paint .red), ?_, top_join ..,
      color_join .., focus.setSiblingColor full .red⟩
    grind [paint_join, eraseSettle]
  · have joined : Focus h (⟨f.side, f.color, f.item, join f.side .black (f.sibling.kid f.side) w
        (f.sibling.kid f.side.flip)⟩ :: path) t := by
      rw [← shape]
      exact focus
    have last := eraseLast_focus joined both
    rw [← shape] at last
    exact .inr ⟨both, last⟩

/-- At a red node or at the root `__ep_rb_erase_color` is done. -/
theorem eraseColor_done {t : RbTree α} (focus : Focus h path t)
    (done : path = [] ∨ t.color = .red) (rounds : Nat) (parent : Option α) :
    ∃ h', eraseColor (rounds + 1) t.top parent h = some h' ∧ Focus h' path (t.paint .black) := by
  refine ⟨blacken h t.top, ?_, blacken_focus focus⟩
  have stops : ¬ (t.top ≠ h.root ∧ isBlack h t.top = true) := by
    rcases done with rfl | red
    · exact fun both => both.1 focus.root.symm
    · simp [isBlack_eq focus, red]
  unfold eraseColor
  exact if_neg stops

/-- Elsewhere there is a round to do, on the side of the node. -/
theorem eraseColor_round {f : Frame α} {t : RbTree α} (focus : Focus h (f :: path) t)
    (dark : t.color ≠ .red) (other : f.sibling.top ≠ t.top) (rounds : Nat) :
    eraseColor (rounds + 1) t.top (parentAt none (f :: path)) h =
      (eraseSibling f.side f.item h).bind fun (w, h) =>
        if isBlack h (h.child .left w) ∧ isBlack h (h.child .right w) then
          eraseColor rounds (some f.item) ((h.setColor w .red).parent f.item) (h.setColor w .red)
        else (eraseLast f.side f.item w h).bind fun h => some (blacken h h.root) := by
  have goes : t.top ≠ h.root ∧ isBlack h t.top = true := by
    refine ⟨Ne.symm focus.root_ne, ?_⟩
    rw [isBlack_eq focus]
    exact decide_eq_true (Color.eq_black_of_ne dark)
  conv_lhs => unfold eraseColor
  rw [if_pos goes]
  simp only [parentAt, side_eq focus other]
  rfl

theorem blacken_root {t : RbTree α} (holds : Holds h t) :
    Holds (blacken h h.root) (t.paint .black) := by
  have focus : Focus h [] t := holds
  rw [holds.root]
  exact blacken_focus focus

/-- `__ep_rb_erase_color` rebalances a tree with a subtree that is short of a black node. -/
theorem eraseColor_holds {t : RbTree α} {n rounds : Nat} (focus : Focus h path t)
    (short : Short t n) (fits : Fits path (n + 1)) (enough : path.length + 1 < rounds) :
    ∃ h', eraseColor rounds t.top (parentAt none path) h = some h' ∧
      Holds h' (RedBlack.eraseColor path t) := by
  obtain ⟨rounds, rfl⟩ : ∃ r, rounds = r + 1 := ⟨rounds - 1, by omega⟩
  induction path generalizing h t n rounds with
  | nil => exact eraseColor_done focus (.inl rfl) rounds none
  | cons f up ih =>
    have valid := valid_eraseColor short fits
    obtain ⟨w, full⟩ := fits.1.exists_top
    unfold RedBlack.eraseColor at valid ⊢
    by_cases red : t.color = .red
    · rw [if_pos red]
      exact eraseColor_done focus (.inr red) rounds _
    · rw [if_neg red] at valid ⊢
      have other : f.sibling.top ≠ t.top := fun same => focus.sibling_ne (same ▸ full) full
      rw [eraseColor_round focus red other]
      have balanced : t.Balanced n := by simpa [Short, red] using short
      cases hue : f.sibling.color with
      | black =>
        have settled := balanced_eraseSettle (s := f.side) (c := f.color) (x := f.item)
          balanced fits.1 hue
        simp only [eraseSibling_black focus full hue, Option.bind_some]
        rcases eraseColor_settle focus full hue with
          ⟨both, u, settle, top, -, next⟩ | ⟨bright, h', u, ran, next, settle⟩
        · rw [settle] at settled ⊢
          rw [if_pos both]
          have levels : (if f.color = .black then n + 1 + 1 else n + 1) =
              (if f.color = .black then n + 1 else n) + 1 := by split_ifs <;> rfl
          obtain ⟨rounds, rfl⟩ : ∃ r, rounds = r + 1 := ⟨rounds - 1, by simp at enough; omega⟩
          rw [(next.top top).2.1, ← top]
          exact ih next settled.2 (levels ▸ fits.2.2) rounds (by simpa using enough)
        · rw [settle, if_neg bright, ran]
          exact ⟨_, rfl, blacken_root next⟩
      | red =>
        have inner := fits.1
        rw [eq_join f.side full, hue, balanced_join_red] at inner
        obtain ⟨dark, -, near, -⟩ := inner
        obtain ⟨w', full'⟩ := near.exists_top
        obtain ⟨h₁, ran₁, focus₁⟩ := eraseSibling_red focus full hue full'
        simp only [hue, full, ran₁, Option.bind_some] at valid ⊢
        rcases eraseColor_settle focus₁ full' dark with
          ⟨both, u, settle, top, color, next⟩ | ⟨bright, h', u, ran, next, settle⟩
        · -- the node above is red: the round after this one paints it
          rw [settle, if_pos both, ← top]
          obtain ⟨rounds, rfl⟩ : ∃ r, rounds = r + 1 := ⟨rounds - 1, by simp at enough; omega⟩
          exact eraseColor_done next (.inr color) rounds _
        · rw [settle] at valid ⊢
          rw [if_neg bright, ran]
          have balanced : (plug (⟨f.side, .black, w, f.sibling.kid f.side.flip⟩ :: up) u).Valid :=
            valid
          have painted := blacken_root next
          rw [RbTree.paint_of_color balanced.1] at painted
          exact ⟨_, rfl, painted⟩

end Dmm.EprbTree
