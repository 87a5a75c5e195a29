import Dmm.Lib.TreeHeap

/-!
# The red-black tree of epoll items

`eprb_tree.c`, `ep_rb_link_node` of `eprb_tree.h`, `nsep_rbtree_insert` and `nsep_find_ep`. A node
is the `rbn` of an item, so both are one address here. Stored pointers are addresses in shared
memory and are translated at each use; the translation keeps null pointers, so a pointer is
`none` or a node.

The source writes every case twice, mirrored; here a case has the side as a parameter, and
`rb_left` and `rb_right` are the children on the two sides. A function returns `none` when it
dereferences a null pointer, or when a loop does not end within the given number of rounds.
-/

namespace Dmm.EprbTree

open RedBlack

variable {α : Type} [DecidableEq α]

/-! ## Rotations -/

/-- The pointer to `old` below its parent, or the root, becomes `new`; the side is the one the
source looks at first. -/
def replaceChild (s : Side) (parent : Option α) (old : α) (new : Option α) (h : Heap α) : Heap α :=
  match parent with
  | some p => if h.child s p = some old then h.setChild s p new else h.setChild s.flip p new
  | none => h.setRoot new

/-- A rotation of `x` to a side. -/
def rotate (s : Side) (x : α) (h : Heap α) : Option (Heap α) := do
  let y ← h.child s.flip x
  let h := h.setChild s.flip x (h.child s y)
  let h := h.reparent (h.child s y) (some x)
  let h := h.setParent y (h.parent x)
  let h := replaceChild s (h.parent x) x (some y) h
  let h := h.setChild s y (some x)
  return h.setParent x (some y)

/-- `__ep_rb_rotate_left` -/
def rotateLeft : α → Heap α → Option (Heap α) := rotate .left

/-- `__ep_rb_rotate_right` -/
def rotateRight : α → Heap α → Option (Heap α) := rotate .right

/-! ## Insertion -/

/-- `root->rb_node->color = EP_RB_BLACK` -/
def blackenRoot (h : Heap α) : Option (Heap α) := do
  let root ← h.root
  return h.setColor root .black

/-- `recolor and rotate` in a round of `ep_rb_insert_color`. -/
def insertOuter (s : Side) (x : α) (h : Heap α) : Option (α × Heap α) := do
  let p ← h.parent x
  let h := h.setColor p .black
  let g ← h.parent p
  let h := h.setColor g .red
  let h ← rotate s.flip g h
  return (x, h)

/-- The part of a round of `ep_rb_insert_color` for an uncle that is not red. -/
def insertTurn (s : Side) (x p : α) (h : Heap α) : Option (α × Heap α) :=
  if h.child s.flip p = some x then do
    let h ← rotate s p h
    insertOuter s p h
  else insertOuter s x h

/-- A round of `ep_rb_insert_color` for a red parent `p` on side `s` of the grandparent `g`. -/
def insertRound (s : Side) (x p g : α) (h : Heap α) : Option (α × Heap α) :=
  match h.child s.flip g with
  | some y =>
    if h.color y = .red then
      some (g, ((h.setColor p .black).setColor y .black).setColor g .red)
    else insertTurn s x p h
  | none => insertTurn s x p h

/-- `ep_rb_insert_color` -/
def insertColor : Nat → α → Heap α → Option (Heap α)
  | 0, _, _ => none
  | rounds + 1, x, h =>
    if h.root = some x then blackenRoot h
    else do
      let p ← h.parent x
      if h.color p = .red then
        let g ← h.parent p
        let s := if h.child .left g = some p then .left else .right
        let (x, h) ← insertRound s x p g h
        insertColor rounds x h
      else blackenRoot h

/-! ## Deletion -/

/-- `!X || X->color == EP_RB_BLACK` -/
def isBlack (h : Heap α) : Option α → Bool
  | none => true
  | some x => h.color x = .black

/-- `if (X) X->color = EP_RB_BLACK` -/
def blacken (h : Heap α) : Option α → Heap α
  | none => h
  | some x => h.setColor x .black

/-- The sibling of the node that is short of a black one, after the round has made it black. -/
def eraseSibling (s : Side) (p : α) (h : Heap α) : Option (α × Heap α) := do
  let w ← h.child s.flip p
  if h.color w = .red then
    let h ← rotate s p ((h.setColor w .black).setColor p .red)
    let w ← h.child s.flip p
    return (w, h)
  else return (w, h)

/-- The sibling after the round has made sure that its child away from `p` is red. -/
def eraseFar (s : Side) (p w : α) (h : Heap α) : Option (α × Heap α) :=
  if isBlack h (h.child s.flip w) then do
    let h ← rotate s.flip w ((blacken h (h.child s w)).setColor w .red)
    let w ← h.child s.flip p
    return (w, h)
  else return (w, h)

/-- The last round of `__ep_rb_erase_color`. -/
def eraseLast (s : Side) (p w : α) (h : Heap α) : Option (Heap α) := do
  let (w, h) ← eraseFar s p w h
  let h := (h.setColor w (h.color p)).setColor p .black
  let far ← h.child s.flip w
  let h := if h.color far ≠ .black then h.setColor far .black else h
  rotate s p h

/-- `__ep_rb_erase_color` -/
def eraseColor : Nat → Option α → Option α → Heap α → Option (Heap α)
  | 0, _, _, _ => none
  | rounds + 1, x, parent, h =>
    if x ≠ h.root ∧ isBlack h x then
      match parent with
      | none => some (blacken h x)
      | some p => do
        let s := if h.child .left p = x then .left else .right
        let (w, h) ← eraseSibling s p h
        if isBlack h (h.child .left w) ∧ isBlack h (h.child .right w) then
          let h := h.setColor w .red
          eraseColor rounds (some p) (h.parent p) h
        else
          let h ← eraseLast s p w h
          return blacken h h.root
    else some (blacken h x)

/-- `while (n->rb_left) n = n->rb_left` -/
def leftmost : Nat → α → Heap α → Option α
  | 0, _, _ => none
  | rounds + 1, x, h =>
    match h.child .left x with
    | none => some x
    | some left => leftmost rounds left h

/-- `ep_rb_erase` of a node with at most one child. -/
def eraseOne (rounds : Nat) (node : α) (child : Option α) (h : Heap α) : Option (Heap α) :=
  let parent := h.parent node
  let color := h.color node
  let h := h.reparent child parent
  let h := replaceChild .left parent node child h
  if color = .black then eraseColor rounds child parent h else some h

/-- The part of `ep_rb_erase` that takes the successor `node` out of the right subtree of `old`,
unless it is the root of that subtree; what becomes of `parent`. -/
def takeSuccessor (old node : α) (h : Heap α) : Option (Option α × Heap α) :=
  let child := h.child .right node
  let parent := h.parent node
  if parent = some old then some (some node, h)
  else do
    let h := h.reparent child parent
    let p ← parent
    let h := h.setChild .left p child
    let h := h.setChild .right node (h.child .right old)
    let right ← h.child .right old
    return (parent, h.setParent right (some node))

/-- `ep_rb_erase` of a node with two children, the second of which is `right`. -/
def eraseTwo (rounds : Nat) (old right : α) (h : Heap α) : Option (Heap α) := do
  let node ← leftmost rounds right h
  let h := replaceChild .left (h.parent old) old (some node) h
  let child := h.child .right node
  let color := h.color node
  let (parent, h) ← takeSuccessor old node h
  let h := h.setColor node (h.color old)
  let h := h.setParent node (h.parent old)
  let h := h.setChild .left node (h.child .left old)
  let left ← h.child .left old
  let h := h.setParent left (some node)
  if color = .black then eraseColor rounds child parent h else some h

/-- `ep_rb_erase` -/
def erase (rounds : Nat) (node : α) (h : Heap α) : Option (Heap α) :=
  match h.child .left node, h.child .right node with
  | none, child => eraseOne rounds node child h
  | child, none => eraseOne rounds node child h
  | some _, some right => eraseTwo rounds node right h

/-- `ep_rb_first` -/
def first (rounds : Nat) (h : Heap α) : Option (Option α) :=
  match h.root with
  | none => some none
  | some n => (leftmost rounds n h).map some

/-! ## Items -/

/-- `NSTACK_MAX_EPITEM_NUM` -/
def maxEpitemNum : Nat := 16384

/-- A `struct ep_rb_node **`: the root or a child of a node. -/
inductive Link (α : Type)
  | root
  | child (s : Side) (x : α)
  deriving DecidableEq

/-- `*p` -/
def Link.load (h : Heap α) : Link α → Option α
  | .root => h.root
  | .child s x => h.child s x

/-- `*p = node` -/
def Link.store (h : Heap α) : Link α → Option α → Heap α
  | .root, node => h.setRoot node
  | .child s x, node => h.setChild s x node

/-- The loop of `nsep_rbtree_insert`, with the rounds that are left until `loopCnt` is out of
range. -/
def descend (fds : α → Int) (fd : Int) (h : Heap α) : Nat → Link α → Option α → Link α × Option α
  | 0, p, parent => (p, parent)
  | rounds + 1, p, parent =>
    match p.load h with
    | none => (p, parent)
    | some epic =>
      descend fds fd h rounds (.child (if fd > fds epic then .right else .left) epic) epic

/-- `ep_rb_link_node` -/
def linkNode (node : α) (parent : Option α) (p : Link α) (h : Heap α) : Heap α :=
  let h := h.setParent node parent
  let h := (h.setChild .right node none).setChild .left node none
  (p.store h (some node)).setColor node .red

/-- `nsep_rbtree_insert` -/
def rbtreeInsert (rounds : Nat) (fds : α → Int) (epi : α) (h : Heap α) : Option (Heap α) :=
  let (p, parent) := descend fds (fds epi) h maxEpitemNum .root none
  insertColor rounds epi (linkNode epi parent p h)

/-- The loop of `nsep_find_ep`, with the rounds that are left until `loopCnt` is out of range. -/
def findLoop (fds : α → Int) (fd : Int) (h : Heap α) : Nat → Option α → Option α
  | 0, _ => none
  | rounds + 1, rbp =>
    match rbp with
    | none => none
    | some epi =>
      if fd > fds epi then findLoop fds fd h rounds (h.child .right epi)
      else if fd < fds epi then findLoop fds fd h rounds (h.child .left epi)
      else some epi

/-- `nsep_find_ep` -/
def findEp (fds : α → Int) (fd : Int) (h : Heap α) : Option α :=
  findLoop fds fd h maxEpitemNum h.root

end Dmm.EprbTree
