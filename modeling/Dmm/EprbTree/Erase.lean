import Dmm.EprbTree.Color

/-!
# Taking a node out of the tree of epoll items

`ep_rb_erase` on memory that holds a tree does what `RedBlack.erase` does to the tree
(`erase_holds`). A node with at most one child is spliced out (`splice_focus`); for one with two
children the successor, the leftmost node of the right subtree, is taken out there
(`takeSuccessor_held`) and put in the place of the node (`successor_focus`).
-/

namespace Dmm.EprbTree

open RedBlack

variable {α : Type} [DecidableEq α] {h : Heap α} {path : List (Frame α)}

/-- Memory holds the tree without a node that has one child at most, once that child is below the
parent of the node and the pointer to the node leads to the child. -/
theorem splice_focus {s : Side} {c : Color} {x : α} {t : RbTree α}
    (focus : Focus h path (join s c .nil x t)) :
    Focus ((h.reparent t.top (parentAt none path)).link path t.top) path t := by
  have nodup : (around path ++ t.items).Nodup := by
    refine List.Nodup.sublist ?_ focus.apart
    apply List.Sublist.append_left
    cases s <;> simp [join, RbTree.items]
  obtain ⟨-, own, apart⟩ := List.nodup_append.mp nodup
  have below := ((held_join ..).mp focus.sub).2.2.2.2.2
  have outside (y : α) (member : y ∈ around path) : t.top ≠ some y := by
    intro here
    exact apart y member y (RbTree.top_mem here) rfl
  refine focus.replace (fun y member => ?_) ?_ ?_ nodup
  · exact (Heap.same_reparent (outside y member) _).link path t.top
  · exact Heap.link_root (h.reparent_root _ _) path t.top
  · refine (below.reparent own _).congr fun y member => Heap.same_link ?_ _
    intro here
    exact apart y here y member rfl

/-- The end of `ep_rb_erase`: when the node taken out was black, the tree is rebalanced. -/
theorem fill_holds {s : Side} {c : Color} {x : α} {t : RbTree α} {rounds : Nat}
    (focus : Focus h path t) (valid : (plug path (join s c .nil x t)).Valid)
    (enough : path.length + 1 < rounds) :
    ∃ h', (if c = .black then eraseColor rounds t.top (parentAt none path) h else some h) =
      some h' ∧ Holds h' (fill c path t) := by
  unfold fill
  cases c with
  | red => exact ⟨h, rfl, focus⟩
  | black =>
    obtain ⟨n, short, fits⟩ := short_of_valid valid
    exact eraseColor_holds focus short fits enough

/-- `ep_rb_erase` of a node with at most one child. -/
theorem eraseOne_holds {s : Side} {c : Color} {x : α} {t : RbTree α} {rounds : Nat}
    (focus : Focus h path (join s c .nil x t)) (valid : (plug path (join s c .nil x t)).Valid)
    (enough : path.length + 1 < rounds) :
    ∃ h', eraseOne rounds x t.top h = some h' ∧ Holds h' (fill c path t) := by
  obtain ⟨color, parent, -, -⟩ := focus.node s
  have above := focus.above
  rw [top_join] at above
  obtain ⟨-, own, apart⟩ := List.nodup_append.mp focus.apart
  have inside : x ∈ (join s c .nil x t).items := RbTree.top_mem (top_join ..)
  have outside : x ∉ around path := fun here => apart x here x inside rfl
  have moved : HeldPath (h.reparent t.top (parentAt none path)) path (some x) none := by
    refine above.congr fun y member => Heap.same_reparent ?_ _
    intro here
    refine apart y member y ?_ rfl
    rw [(items_join_perm ..).mem_iff]
    simp [RbTree.top_mem here]
  simp only [eraseOne, color, parent, replaceChild_eq moved outside]
  exact fill_holds (splice_focus focus) valid enough

/-! ## The successor -/

omit [DecidableEq α] in
theorem leftmost_eq {t : RbTree α} {up : Option α} {x : α} {rounds : Nat} (held : Held h t up)
    (full : t.top = some x) (enough : t.items.length ≤ rounds) :
    leftmost rounds x h = t.items.head? := by
  induction t generalizing up x rounds with
  | nil => cases full
  | node c l y r left _ =>
    obtain rfl := Option.some.inj full
    obtain ⟨-, -, near, -, inside, -⟩ := held
    rw [RbTree.items, List.length_append, List.length_cons] at enough
    obtain ⟨rounds, rfl⟩ : ∃ n, rounds = n + 1 := ⟨rounds - 1, by omega⟩
    rw [leftmost, near, RbTree.items]
    cases top : l.top with
    | none =>
      obtain rfl := RbTree.top_eq_none.mp top
      rfl
    | some z =>
      have first := left inside top (by omega : l.items.length ≤ rounds)
      rw [List.head?_append_of_ne_nil _ (List.ne_nil_of_mem (RbTree.top_mem top))]
      exact first

/-- Taking the successor out of the right subtree. The nodes of that subtree are held without
it, below the successor. -/
theorem takeSuccessor_held {old y : α} {d : Color} {low : List (Frame α)} {rest : RbTree α}
    (held : Held h (plug low (.node d .nil y rest)) (some old))
    (right : h.child .right old = (plug low (.node d .nil y rest)).top)
    (nodup : (old :: (plug low (.node d .nil y rest)).items).Nodup) (first : before low = []) :
    ∃ h', takeSuccessor old y h = some (parentAt (some y) low, h') ∧
      Held h' (plug low rest) (some y) ∧ h'.child .right y = (plug low rest).top ∧
      h'.root = h.root ∧ ∀ x ∉ (plug low (.node d .nil y rest)).items, h.Same h' x := by
  obtain ⟨outside, nodup⟩ := List.nodup_cons.mp nodup
  have apart := (items_plug_perm low _).nodup_iff.mp nodup
  obtain ⟨above, node⟩ := (held_plug low _).mp held
  obtain ⟨-, parent, -, beyond, -, below⟩ := node
  cases low with
  | nil =>
    refine ⟨h, ?_, below, beyond, rfl, fun x _ => .refl h x⟩
    simp [takeSuccessor, parent, parentAt]
  | cons f low =>
    obtain ⟨s, c, p, sibling⟩ := f
    obtain rfl : s = .left := by
      cases s with
      | left => rfl
      | right => simp [before] at first
    set path : List (Frame α) := ⟨.left, c, p, sibling⟩ :: low with shape
    obtain ⟨clear, own, apart⟩ := List.nodup_append.mp apart
    obtain ⟨alone, own⟩ := List.nodup_cons.mp own
    have whole (x : α) : x ∈ (plug path (.node d .nil y rest)).items ↔
        x ∈ around path ∨ x = y ∨ x ∈ rest.items := by
      rw [(items_plug_perm ..).mem_iff]
      simp [RbTree.items]
    have part (x : α) : x ∈ (plug path rest).items ↔ x ∈ around path ∨ x ∈ rest.items := by
      rw [(items_plug_perm ..).mem_iff, List.mem_append]
    obtain ⟨z, inside, top⟩ := exists_top_plug ⟨.left, c, p, sibling⟩ low rest
    -- the subtree without the successor, still below the node that is deleted
    set h₁ := (h.reparent rest.top (some p)).link path rest.top
    have moved : Held h₁ (plug path rest) (some old) := by
      refine (held_plug path rest).mpr ⟨?_, ?_⟩
      · refine (above.congr fun x member => Heap.same_reparent ?_ _).link clear
        intro here
        exact apart x member x (List.mem_cons_of_mem _ (RbTree.top_mem here)) rfl
      · refine (below.reparent own _).congr fun x member => Heap.same_link ?_ _
        intro here
        exact apart x here x (List.mem_cons_of_mem _ member) rfl
    have same₁ (x : α) (out : x ∉ (plug path (.node d .nil y rest)).items) : h.Same h₁ x := by
      rw [whole] at out
      refine (Heap.same_reparent ?_ _).trans (Heap.same_link (fun here => out (.inl here)) _)
      intro here
      exact out (.inr (.inr (RbTree.top_mem here)))
    have kept : h₁.child .right old = some z := by
      rw [(same₁ old outside).child, right, ← top]
      exact top_plug_cons ..
    -- the successor gets the subtree
    have unlisted : y ∉ (plug path rest).items := by
      rw [part]
      rintro (here | here)
      · exact apart y here y List.mem_cons_self rfl
      · exact alone here
    have nodup' : (plug path rest).items.Nodup := by
      rw [(items_plug_perm ..).nodup_iff, List.nodup_append]
      exact ⟨clear, own, fun x member z inside => apart x member z (List.mem_cons_of_mem _ inside)⟩
    have away : old ≠ y := by
      rintro rfl
      exact outside ((whole old).mpr (.inr (.inl rfl)))
    have last : (h₁.setChild .right y (some z)).child .right old = some z :=
      ((Heap.same_setChild away .right (some z)).child .right).trans kept
    refine ⟨(h₁.setChild .right y (some z)).setParent z (some y), ?_, ?_, ?_, ?_, fun x out => ?_⟩
    · have different : p ≠ old := by
        rintro rfl
        exact outside ((whole p).mpr (.inl (by simp [shape, around])))
      have linked : h₁ = (h.reparent rest.top (some p)).setChild .left p rest.top := rfl
      simp only [takeSuccessor, parent, beyond, parentAt, Option.some.injEq, different, if_false,
        Option.bind_eq_bind, Option.bind_some, ← linked, kept, last, shape]
      rfl
    · have carried : Held (h₁.setChild .right y (some z)) (plug path rest) (some old) := by
        refine moved.congr fun x member => Heap.same_setChild ?_ _ _
        rintro rfl
        exact unlisted member
      have hung := carried.reparent nodup' (some y)
      rw [top] at hung
      exact hung
    · rw [top]
      exact h₁.setChild_child .right y (some z)
    · exact h.reparent_root (some p) rest.top
    · refine (same₁ x out).trans ((Heap.same_setChild ?_ _ _).trans (Heap.same_setParent ?_ _))
      · rintro rfl
        exact out ((whole x).mpr (.inr (.inl rfl)))
      · rintro rfl
        exact out ((whole x).mpr (.inl inside))

/-- A node gets a colour, a parent and a left child, which gets the node as its parent. -/
def seated (h : Heap α) (y : α) (c : Color) (up left : Option α) : Heap α :=
  (((h.setColor y c).setParent y up).setChild .left y left).reparent left (some y)

theorem same_seated {x y : α} {left : Option α} (away : x ≠ y) (other : left ≠ some x) (c : Color)
    (up : Option α) : h.Same (seated h y c up left) x :=
  (Heap.same_setColor away c).trans ((Heap.same_setParent away up).trans
    ((Heap.same_setChild away .left left).trans (Heap.same_reparent other (some y))))

/-- The node with its two subtrees, in its new place. -/
theorem held_seated {l r : RbTree α} {y : α} {up' : Option α} (left : Held h l up')
    (right : Held h r (some y)) (far : h.child .right y = r.top)
    (nodup : (l.items ++ y :: r.items).Nodup) (c : Color) (up : Option α) :
    Held (seated h y c up l.top) (.node c l y r) up := by
  obtain ⟨ownLeft, ownRight, across⟩ := List.nodup_append.mp nodup
  obtain ⟨alone, -⟩ := List.nodup_cons.mp ownRight
  have below (x : α) (member : x ∈ l.items) : x ≠ y := across x member y List.mem_cons_self
  have other : l.top ≠ some y := fun here => below y (RbTree.top_mem here) rfl
  set h₁ := ((h.setColor y c).setParent y up).setChild .left y l.top
  have here : h₁.Same (seated h y c up l.top) y := Heap.same_reparent other _
  refine ⟨here.color.trans ?_, here.parent.trans ?_, (here.child _).trans ?_,
    (here.child _).trans ?_, ?_, ?_⟩
  · exact Heap.setColor_color h y c
  · exact Heap.setParent_parent (h.setColor y c) y up
  · exact Heap.setChild_child _ .left y l.top
  · exact (Heap.setChild_child_flip ((h.setColor y c).setParent y up) .left y l.top).trans far
  · refine Held.reparent (left.congr fun x member => ?_) ownLeft (some y)
    have away := below x member
    exact (Heap.same_setColor away c).trans ((Heap.same_setParent away up).trans
      (Heap.same_setChild away .left l.top))
  · refine right.congr fun x member => same_seated ?_ ?_ c up
    · rintro rfl
      exact alone member
    · intro top
      exact across x (RbTree.top_mem top) x (List.mem_cons_of_mem _ member) rfl

/-- The successor `y` in the place of a node with two children. -/
theorem eraseTwo_focus {c d : Color} {old y z : α} {l rest : RbTree α} {low : List (Frame α)}
    {rounds : Nat} (focus : Focus h path (.node c l old (plug low (.node d .nil y rest))))
    (full : l.top = some z) (first : before low = [])
    (enough : (plug low (.node d .nil y rest)).items.length ≤ rounds) {right : α}
    (top : (plug low (.node d .nil y rest)).top = some right) :
    ∃ h', Focus h' (low ++ ⟨.right, c, y, l⟩ :: path) rest ∧
      eraseTwo rounds old right h = if d = .black then
        eraseColor rounds rest.top (parentAt none (low ++ ⟨.right, c, y, l⟩ :: path)) h'
      else some h' := by
  set r := plug low (.node d .nil y rest) with shape
  have listed : r.items = y :: (plug low rest).items := by
    rw [shape, items_plug, items_plug, first]
    rfl
  have nodup := focus.apart
  rw [RbTree.items, listed] at nodup
  obtain ⟨color, parent, near, far, left, held⟩ := focus.sub
  have above : HeldPath h path (some old) none := focus.above
  obtain ⟨-, own, apart⟩ := List.nodup_append.mp focus.apart
  have inside (x : α) :
      x ∈ (RbTree.node c l old r).items ↔ x ∈ l.items ∨ x = old ∨ x ∈ r.items := by
    simp [RbTree.items]
  have off (x : α) (member : x ∈ (RbTree.node c l old r).items) : x ∉ around path :=
    fun here => apart x here x member rfl
  obtain ⟨ownLeft, ownRight, across⟩ := List.nodup_append.mp own
  -- the pointer to the node leads to the successor
  set h₀ := h.link path (some y)
  have same₀ (x : α) (member : x ∈ (RbTree.node c l old r).items) : h.Same h₀ x :=
    Heap.same_link (off x member) _
  have here₀ := same₀ old ((inside old).mpr (.inr (.inl rfl)))
  have linked : replaceChild .left (parentAt none path) old (some y) h = h₀ :=
    replaceChild_eq above (off old ((inside old).mpr (.inr (.inl rfl)))) .left (some y)
  have held₀ : Held h₀ r (some old) :=
    held.congr fun x member => same₀ x ((inside x).mpr (.inr (.inr member)))
  obtain ⟨color', -, -, beyond, -⟩ := ((held_plug low _).mp held₀).2
  obtain ⟨h₁, took, moved, hung, root₁, same₁⟩ :=
    takeSuccessor_held held₀ ((here₀.child .right).trans far) ownRight first
  -- the node itself and its left subtree are as they were
  have out (x : α) (member : x ∈ l.items ∨ x = old) : x ∉ r.items := by
    rcases member with member | rfl
    · exact fun here => across x member x (List.mem_cons_of_mem _ here) rfl
    · exact (List.nodup_cons.mp ownRight).1
  have here₁ := here₀.trans (same₁ old (out old (.inr rfl)))
  have left₁ : Held h₁ l (some old) := by
    refine left.congr fun x member => (same₀ x ((inside x).mpr (.inl member))).trans ?_
    exact same₁ x (out x (.inl member))
  have fewer : (l.items ++ y :: (plug low rest).items).Sublist (RbTree.node c l old r).items := by
    rw [← listed]
    exact (List.sublist_cons_self old r.items).append_left l.items
  have order : (l.items ++ y :: (plug low rest).items).Nodup := own.sublist fewer
  have away : old ≠ y := by
    rintro rfl
    exact out old (.inr rfl) (listed ▸ List.mem_cons_self)
  refine ⟨seated h₁ y c (parentAt none path) l.top, ?_, ?_⟩
  · have placed : Focus (seated h₁ y c (parentAt none path) l.top) path
        (.node c l y (plug low rest)) := by
      refine focus.replace (fun x member => ?_) ?_ (held_seated left₁ moved hung order c _) ?_
      · have beyond : x ∉ (RbTree.node c l old r).items := fun here => off x here member
        rw [inside] at beyond
        refine (same₁ x fun here => beyond (.inr (.inr here))).trans (same_seated ?_ ?_ c _)
        · rintro rfl
          exact beyond (.inr (.inr (listed ▸ List.mem_cons_self)))
        · intro here
          exact beyond (.inl (RbTree.top_mem here))
      · exact (Heap.reparent_root _ (some y) l.top).trans root₁
      · exact focus.apart.sublist (fewer.append_left (around path))
    unfold Focus at placed ⊢
    rwa [plug_append]
  · have leads : leftmost rounds right h = some y := by
      rw [leftmost_eq held top enough, listed]
      rfl
    have color₁ : h₁.color old = c := here₁.color.trans color
    have parent₁ : h₁.parent old = parentAt none path := here₁.parent.trans parent
    have left₁ : h₁.child .left old = some z := (here₁.child .left).trans (near.trans full)
    have last (h₂ : Heap α) (same : h₂.child .left old = some z) :
        (h₂.setChild .left y (some z)).child .left old = some z :=
      ((Heap.same_setChild away .left (some z)).child .left).trans same
    have bottom : parentAt none (low ++ ⟨.right, c, y, l⟩ :: path) = parentAt (some y) low := by
      cases low <;> rfl
    have parent₂ : (h₁.setColor y c).parent old = parentAt none path := parent₁
    have left₂ (up : Option α) : ((h₁.setColor y c).setParent y up).child .left old = some z :=
      left₁
    simp only [eraseTwo, leads, parent, linked, took, Option.bind_eq_bind, Option.bind_some, color₁,
      parent₂, left₂, last, bottom, color', beyond, full]
    rfl

/-- `ep_rb_erase` takes a stored node out. -/
theorem erase_holds {c : Color} {l r : RbTree α} {x : α} {rounds : Nat}
    (focus : Focus h path (.node c l x r)) (valid : (plug path (.node c l x r)).Valid)
    (enough : (plug path (.node c l x r)).items.length + 1 < rounds) :
    ∃ h', erase rounds x h = some h' ∧ Holds h' (RedBlack.erase path c l r) := by
  obtain ⟨-, -, near, far, -⟩ := focus.sub
  have size := length_path_le path (.node c l x r)
  have short : path.length + 1 < rounds := by omega
  unfold erase RedBlack.erase
  rw [near, far]
  cases left : l.top with
  | none =>
    obtain rfl := RbTree.top_eq_none.mp left
    exact eraseOne_holds (s := .left) focus valid short
  | some z =>
    cases right : r.top with
    | none =>
      obtain rfl := RbTree.top_eq_none.mp right
      have spliced := eraseOne_holds (s := .right) focus valid short
      rwa [left] at spliced
    | some w =>
      have full : r ≠ .nil := by
        rintro rfl
        cases right
      obtain ⟨⟨low, d, y, rest⟩, found⟩ := Option.ne_none_iff_exists'.mp (firstPath_ne_none full [])
      rw [found]
      obtain ⟨low', rfl, first, rfl⟩ := firstPath_spec found
      rw [List.append_nil] at found ⊢
      have inner : (plug low' (.node d .nil y rest)).items.length ≤ rounds := by
        simp only [RbTree.items, List.length_append, List.length_cons] at size
        omega
      obtain ⟨h', focus', ran⟩ := eraseTwo_focus focus left first inner right
      dsimp only
      rw [ran]
      have longer := length_path_le low' (.node d .nil y rest)
      have moved := valid_plug_item valid y
      refine fill_holds (s := .left) (x := y) focus' ?_ ?_
      · rwa [plug_append]
      · simp only [RbTree.items, List.length_append, List.length_cons] at size longer ⊢
        omega

end Dmm.EprbTree
