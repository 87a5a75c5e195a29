import Dmm.Lib.RedBlack

/-!
# Red-black trees in memory

Nodes with a colour, a pointer to the parent and one to each child, and a pointer to the root.
`Held` says that memory holds a tree: every pointer is the true one. A subtree at the end of a
path is held by its own nodes and those of the path (`held_plug`), so a program that walks a
tree is followed by moving along the path and back (`Focus.up`, `Focus.down`), and a write is
followed where it happens: the colour of the node in focus (`Focus.setColor`), or another subtree
put in its place (`Focus.replace`).
-/

namespace Dmm.RedBlack

/-- Nodes and the pointer to the root; `none` is the null pointer. -/
structure Heap (α : Type) where
  color : α → Color
  parent : α → Option α
  child : Side → α → Option α
  root : Option α

variable {α : Type} [DecidableEq α]

namespace Heap

/-- A write to a colour. -/
def setColor (h : Heap α) (x : α) (c : Color) : Heap α :=
  { h with color := Function.update h.color x c }

/-- A write to a parent pointer. -/
def setParent (h : Heap α) (x : α) (p : Option α) : Heap α :=
  { h with parent := Function.update h.parent x p }

/-- A write to a child pointer. -/
def setChild (h : Heap α) (s : Side) (x : α) (p : Option α) : Heap α :=
  { h with child := Function.update h.child s (Function.update (h.child s) x p) }

/-- A write to the pointer to the root. -/
def setRoot (h : Heap α) (p : Option α) : Heap α := { h with root := p }

/-- A write to the parent pointer of a node, if there is one. -/
def reparent (h : Heap α) : Option α → Option α → Heap α
  | none, _ => h
  | some x, p => h.setParent x p

/-- A write to the pointer that leads to the end of a path. -/
def link (h : Heap α) : List (Frame α) → Option α → Heap α
  | [], p => h.setRoot p
  | f :: _, p => h.setChild f.side f.item p

/-- Two heaps have the same node. -/
structure Same (h h' : Heap α) (x : α) : Prop where
  color : h'.color x = h.color x
  parent : h'.parent x = h.parent x
  child : ∀ s, h'.child s x = h.child s x

section Same

variable {h h₁ h₂ h₃ : Heap α} {x y : α}

omit [DecidableEq α] in
theorem Same.refl (h : Heap α) (x : α) : Same h h x := ⟨rfl, rfl, fun _ => rfl⟩

omit [DecidableEq α] in
theorem Same.trans (first : Same h₁ h₂ x) (second : Same h₂ h₃ x) : Same h₁ h₃ x :=
  ⟨second.color.trans first.color, second.parent.trans first.parent,
    fun s => (second.child s).trans (first.child s)⟩

theorem same_setColor (away : x ≠ y) (c : Color) : Same h (h.setColor y c) x :=
  ⟨Function.update_of_ne away _ _, rfl, fun _ => rfl⟩

theorem same_setParent (away : x ≠ y) (p : Option α) : Same h (h.setParent y p) x :=
  ⟨rfl, Function.update_of_ne away _ _, fun _ => rfl⟩

theorem same_setChild (away : x ≠ y) (s : Side) (p : Option α) : Same h (h.setChild s y p) x := by
  refine ⟨rfl, rfl, fun s' => ?_⟩
  by_cases here : s' = s
  · subst here
    simp [setChild, away]
  · simp [setChild, here]

omit [DecidableEq α] in
theorem same_setRoot (p : Option α) : Same h (h.setRoot p) x := ⟨rfl, rfl, fun _ => rfl⟩

theorem same_reparent {target : Option α} (away : target ≠ some x) (p : Option α) :
    Same h (h.reparent target p) x := by
  cases target with
  | none => exact .refl h x
  | some y => exact same_setParent (fun here => away (congrArg some here.symm)) p

end Same

section Fields

variable (h : Heap α) (s : Side) (x : α) (p : Option α) (c : Color)

@[simp]
theorem setColor_color : (h.setColor x c).color x = c := Function.update_self _ _ _

@[simp]
theorem setParent_parent : (h.setParent x p).parent x = p := Function.update_self _ _ _

@[simp]
theorem setChild_child : (h.setChild s x p).child s x = p := by simp [setChild]

@[simp]
theorem setChild_child_flip : (h.setChild s x p).child s.flip x = h.child s.flip x := by
  simp [setChild]

@[simp]
theorem setChild_flip_child : (h.setChild s.flip x p).child s x = h.child s x := by
  have other : s ≠ s.flip := fun same => Side.flip_ne s same.symm
  simp [setChild, other]

theorem reparent_root (target : Option α) : (h.reparent target p).root = h.root := by
  cases target <;> rfl

end Fields

end Heap

/-! ## A tree in memory -/

/-- A tree is held, below this parent. -/
def Held (h : Heap α) : RbTree α → Option α → Prop
  | .nil, _ => True
  | .node c l x r, up => h.color x = c ∧ h.parent x = up ∧ h.child .left x = l.top ∧
      h.child .right x = r.top ∧ Held h l (some x) ∧ Held h r (some x)

/-- The node above the end of a path. -/
def parentAt (up : Option α) : List (Frame α) → Option α
  | [] => up
  | f :: _ => some f.item

/-- The items of a path and of the subtrees beside it. -/
def around : List (Frame α) → List α
  | [] => []
  | f :: up => around up ++ f.item :: f.sibling.items

/-- A write to the pointer that leads to the end of a path touches no node off the path. -/
theorem Heap.same_link {h : Heap α} {path : List (Frame α)} {x : α} (outside : x ∉ around path)
    (p : Option α) : Same h (h.link path p) x := by
  cases path with
  | nil => exact same_setRoot p
  | cons f path =>
    refine same_setChild ?_ _ _
    rintro rfl
    exact outside (by simp [around])

theorem Heap.Same.link {h h' : Heap α} {x : α} (same : Same h h' x) (path : List (Frame α))
    (p : Option α) : Same (h.link path p) (h'.link path p) x := by
  cases path with
  | nil => exact ⟨same.color, same.parent, same.child⟩
  | cons f path =>
    refine ⟨same.color, same.parent, fun s => ?_⟩
    by_cases side : s = f.side
    · subst side
      by_cases here : x = f.item
      · subst here
        simp [Heap.link]
      · simp [Heap.link, Heap.setChild, here, same.child]
    · simp [Heap.link, Heap.setChild, side, same.child]

theorem Heap.link_root {h h' : Heap α} (same : h'.root = h.root) (path : List (Frame α))
    (p : Option α) : (h'.link path p).root = (h.link path p).root := by
  cases path with
  | nil => rfl
  | cons f path => exact same

/-- A path is held, with this node at its lower end and this parent above it. -/
def HeldPath (h : Heap α) : List (Frame α) → Option α → Option α → Prop
  | [], _, _ => True
  | f :: path, low, up => h.color f.item = f.color ∧ h.parent f.item = parentAt up path ∧
      h.child f.side f.item = low ∧ h.child f.side.flip f.item = f.sibling.top ∧
      Held h f.sibling (some f.item) ∧ HeldPath h path (some f.item) up

section Held

variable {h h' : Heap α} {up low : Option α}

omit [DecidableEq α] in
theorem held_join (s : Side) (c : Color) (a b : RbTree α) (x : α) :
    Held h (join s c a x b) up ↔ h.color x = c ∧ h.parent x = up ∧ h.child s x = a.top ∧
      h.child s.flip x = b.top ∧ Held h a (some x) ∧ Held h b (some x) := by
  cases s
  · rfl
  · simp only [join, Held, Side.flip]
    tauto

omit [DecidableEq α] in
theorem Held.congr {t : RbTree α} (held : Held h t up) (same : ∀ x ∈ t.items, h.Same h' x) :
    Held h' t up := by
  induction t generalizing up with
  | nil => trivial
  | node c l x r left right =>
    obtain ⟨color, parent, near, far, first, second⟩ := held
    have here := same x (by simp [RbTree.items])
    refine ⟨here.color.trans color, here.parent.trans parent, (here.child _).trans near,
      (here.child _).trans far, left first fun y member => same y ?_,
      right second fun y member => same y ?_⟩
    · simp [RbTree.items, member]
    · simp [RbTree.items, member]

theorem Held.reparent {t : RbTree α} (held : Held h t up) (nodup : t.items.Nodup)
    (up' : Option α) : Held (h.reparent t.top up') t up' := by
  cases t with
  | nil => trivial
  | node c l x r =>
    obtain ⟨color, -, near, far, first, second⟩ := held
    rw [RbTree.items, List.nodup_append, List.nodup_cons] at nodup
    obtain ⟨-, ⟨right, -⟩, apart⟩ := nodup
    refine ⟨color, Function.update_self _ _ _, near, far, first.congr fun y member => ?_,
      second.congr fun y member => ?_⟩
    · exact Heap.same_setParent (apart y member x List.mem_cons_self) up'
    · exact Heap.same_setParent (by rintro rfl; exact right member) up'

omit [DecidableEq α] in
theorem HeldPath.congr {path : List (Frame α)} (held : HeldPath h path low up)
    (same : ∀ x ∈ around path, h.Same h' x) : HeldPath h' path low up := by
  induction path generalizing low with
  | nil => trivial
  | cons f path ih =>
    obtain ⟨color, parent, near, far, sibling, rest⟩ := held
    have here := same f.item (by simp [around])
    refine ⟨here.color.trans color, here.parent.trans parent, (here.child _).trans near,
      (here.child _).trans far, sibling.congr fun y member => same y ?_,
      ih rest fun y member => same y ?_⟩
    · simp [around, member]
    · simp [around, member]

omit [DecidableEq α] in
/-- A tree is held when a subtree and the path above it are. -/
theorem held_plug (path : List (Frame α)) (t : RbTree α) :
    Held h (plug path t) up ↔ HeldPath h path t.top up ∧ Held h t (parentAt up path) := by
  induction path generalizing t with
  | nil => simp [plug, HeldPath, parentAt]
  | cons f path ih =>
    rw [plug, ih, Frame.attach, held_join, top_join]
    simp only [HeldPath, parentAt]
    tauto

omit [DecidableEq α] in
/-- The items of a tree are those of a subtree and those around it. -/
theorem items_plug_perm (path : List (Frame α)) (t : RbTree α) :
    (plug path t).items.Perm (around path ++ t.items) := by
  induction path generalizing t with
  | nil => exact .refl _
  | cons f path ih =>
    rw [around, List.append_assoc, List.cons_append]
    exact (ih (f.attach t)).trans ((items_join_perm ..).append_left (around path))

/-- The path leads to another subtree when its pointer does. -/
theorem HeldPath.link {path : List (Frame α)} (held : HeldPath h path low up)
    (nodup : (around path).Nodup) {low' : Option α} : HeldPath (h.link path low') path low' up := by
  cases path with
  | nil => trivial
  | cons f path =>
    obtain ⟨color, parent, -, far, sibling, rest⟩ := held
    rw [around, List.nodup_append, List.nodup_cons] at nodup
    obtain ⟨-, ⟨beside, -⟩, apart⟩ := nodup
    refine ⟨color, parent, ?_, ?_, sibling.congr fun y member => ?_, rest.congr fun y member => ?_⟩
    · simp [Heap.link, Heap.setChild]
    · simpa [Heap.link, Heap.setChild] using far
    · exact Heap.same_setChild (by rintro rfl; exact beside member) _ _
    · exact Heap.same_setChild (apart y member f.item List.mem_cons_self) _ _

end Held

/-! ## A subtree in focus -/

/-- Memory holds a tree: its root is the root, all its nodes are different, and every colour and
every pointer is that of the tree. -/
structure Holds (h : Heap α) (t : RbTree α) : Prop where
  held : Held h t none
  root : h.root = t.top
  nodup : t.items.Nodup

/-- Memory holds the tree with the subtree `t` at the end of a path. -/
abbrev Focus (h : Heap α) (path : List (Frame α)) (t : RbTree α) : Prop := Holds h (plug path t)

omit [DecidableEq α] in
theorem exists_top_plug (f : Frame α) (path : List (Frame α)) (t : RbTree α) :
    ∃ x ∈ around (f :: path), (plug (f :: path) t).top = some x := by
  induction path generalizing f t with
  | nil => exact ⟨f.item, by simp [around], top_join ..⟩
  | cons g path ih =>
    obtain ⟨x, member, top⟩ := ih g (f.attach t)
    exact ⟨x, List.mem_append_left _ member, top⟩

omit [DecidableEq α] in
/-- The root of a tree does not depend on a subtree that is not the whole. -/
theorem top_plug_cons (f : Frame α) (path : List (Frame α)) (t t' : RbTree α) :
    (plug (f :: path) t).top = (plug (f :: path) t').top := by
  induction path generalizing f t t' with
  | nil => exact (top_join ..).trans (top_join ..).symm
  | cons g path ih => exact ih g (f.attach t) (f.attach t')

namespace Focus

variable {h h' : Heap α} {path : List (Frame α)} {t : RbTree α}

omit [DecidableEq α] in
theorem sub (focus : Focus h path t) : Held h t (parentAt none path) :=
  ((held_plug path t).mp focus.held).2

omit [DecidableEq α] in
theorem above (focus : Focus h path t) : HeldPath h path t.top none :=
  ((held_plug path t).mp focus.held).1

omit [DecidableEq α] in
theorem apart (focus : Focus h path t) : (around path ++ t.items).Nodup :=
  (items_plug_perm path t).nodup_iff.mp focus.nodup

omit [DecidableEq α] in
theorem node (s : Side) {c : Color} {a b : RbTree α} {x : α}
    (focus : Focus h path (join s c a x b)) :
    h.color x = c ∧ h.parent x = parentAt none path ∧ h.child s x = a.top ∧
      h.child s.flip x = b.top := by
  obtain ⟨color, parent, near, far, -⟩ := (held_join s c a b x).mp focus.sub
  exact ⟨color, parent, near, far⟩

omit [DecidableEq α] in
theorem top {x : α} (focus : Focus h path t) (full : t.top = some x) : h.color x = t.color ∧
    h.parent x = parentAt none path ∧ ∀ s, h.child s x = (t.kid s).top := by
  cases t with
  | nil => cases full
  | node c l y r =>
    obtain rfl := Option.some.inj full
    obtain ⟨color, parent, left, right, -⟩ := focus.sub
    refine ⟨color, parent, fun s => ?_⟩
    cases s
    · exact left
    · exact right

omit [DecidableEq α] in
theorem across {f : Frame α} (focus : Focus h (f :: path) t) :
    Focus h (⟨f.side.flip, f.color, f.item, t⟩ :: path) f.sibling := by
  have mirrored : Focus h path (join f.side f.color t f.item f.sibling) := focus
  rw [← join_flip] at mirrored
  exact mirrored

omit [DecidableEq α] in
theorem frame {f : Frame α} (focus : Focus h (f :: path) t) :
    h.color f.item = f.color ∧ h.parent f.item = parentAt none path ∧
      h.child f.side f.item = t.top ∧ h.child f.side.flip f.item = f.sibling.top := by
  have seen : Focus h path (join f.side f.color t f.item f.sibling) := focus
  exact seen.node f.side

omit [DecidableEq α] in
theorem root_ne {f : Frame α} (focus : Focus h (f :: path) t) : h.root ≠ t.top := by
  obtain ⟨x, member, top⟩ := exists_top_plug f path t
  rw [focus.root, top]
  intro same
  exact (List.nodup_append.mp focus.apart).2.2 x member x (RbTree.top_mem same.symm) rfl

omit [DecidableEq α] in
theorem sibling_ne {f : Frame α} (focus : Focus h (f :: path) t) {x : α} (full : t.top = some x) :
    f.sibling.top ≠ some x := by
  intro same
  have member : x ∈ around (f :: path) := by simp [around, RbTree.top_mem same]
  exact (List.nodup_append.mp focus.apart).2.2 x member x (RbTree.top_mem full) rfl

/-- Another subtree in the place of the one in focus: its nodes are held, and around it only the
pointer that leads to it has been written. -/
theorem replace (focus : Focus h path t) {t' : RbTree α}
    (same : ∀ x ∈ around path, (h.link path t'.top).Same h' x)
    (root : h'.root = (h.link path t'.top).root) (held : Held h' t' (parentAt none path))
    (nodup : (around path ++ t'.items).Nodup) : Focus h' path t' := by
  refine ⟨(held_plug path t').mpr ⟨?_, held⟩, ?_, (items_plug_perm path t').nodup_iff.mpr nodup⟩
  · exact (focus.above.link (List.nodup_append.mp nodup).1).congr same
  · rw [root]
    cases path with
    | nil => rfl
    | cons f path => exact focus.root.trans (top_plug_cons f path t t')

/-- The node in focus in another colour. -/
theorem setColor (focus : Focus h path t) {x : α} (full : t.top = some x) (c : Color) :
    Focus (h.setColor x c) path (t.paint c) := by
  have nodup := focus.apart
  have apart := (List.nodup_append.mp nodup).2.2
  have outside (y : α) (member : y ∈ around path) : h.Same (h.setColor x c) y :=
    Heap.same_setColor (apart y member x (RbTree.top_mem full)) c
  refine ⟨(held_plug path _).mpr ⟨?_, ?_⟩, ?_, ?_⟩
  · rw [RbTree.top_paint]
    exact focus.above.congr outside
  · cases t with
    | nil => cases full
    | node c' l y r =>
      obtain rfl := Option.some.inj full
      obtain ⟨-, parent, near, far, first, second⟩ := focus.sub
      have own := (List.nodup_append.mp nodup).2.1
      rw [RbTree.items, List.nodup_append, List.nodup_cons] at own
      obtain ⟨-, ⟨right, -⟩, left⟩ := own
      refine ⟨Function.update_self _ _ _, parent, near, far, first.congr fun z member => ?_,
        second.congr fun z member => ?_⟩
      · exact Heap.same_setColor (left z member y List.mem_cons_self) c
      · exact Heap.same_setColor (by rintro rfl; exact right member) c
  · have same : (plug path (t.paint c)).top = (plug path t).top := by
      cases path with
      | nil => exact RbTree.top_paint c t
      | cons f path => exact top_plug_cons f path _ _
    exact focus.root.trans same.symm
  · rw [items_plug_congr path (RbTree.items_paint c t)]
    exact focus.nodup

theorem setSiblingColor {f : Frame α} (focus : Focus h (f :: path) t) {y : α}
    (full : f.sibling.top = some y) (c : Color) :
    Focus (h.setColor y c) ({ f with sibling := f.sibling.paint c } :: path) t := by
  have back := (focus.across.setColor full c).across
  dsimp only at back
  rwa [Side.flip_flip] at back

end Focus

end Dmm.RedBlack
