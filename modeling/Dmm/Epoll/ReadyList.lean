import Dmm.Epoll.Poll
import Dmm.Lib.Linked

/-!
# The ready list as a linked path

The ready list and the part of it that a poll has detached, as lists of items. Reading the tail
pointer as the back link of the null pointer, each is a doubly linked path that ends there: adding
at the tail and deleting are then the general insertion and removal of a path.
-/

namespace Dmm.Epoll

open Dmm.Linked

/-- The nodes of a list of items. -/
def nodes (l : List Nat) : List Node := l.map Node.rdllink

@[simp] theorem nodes_nil : nodes [] = [] := rfl

@[simp] theorem nodes_cons (x : Nat) (l : List Nat) : nodes (x :: l) = .rdllink x :: nodes l := rfl

@[simp] theorem nodes_append (l₁ l₂ : List Nat) : nodes (l₁ ++ l₂) = nodes l₁ ++ nodes l₂ :=
  List.map_append

@[simp] theorem rdllink_mem_nodes {x : Nat} {l : List Nat} : Node.rdllink x ∈ nodes l ↔ x ∈ l := by
  simp [nodes]

@[simp] theorem null_notMem_nodes (l : List Nat) : Node.null ∉ nodes l := by simp [nodes]

@[simp] theorem list_notMem_nodes (l : List Nat) : Node.list ∉ nodes l := by simp [nodes]

theorem nodes_nodup {l : List Nat} (distinct : l.Nodup) : (nodes l).Nodup :=
  distinct.map fun _ _ same => Node.rdllink.inj same

/-- Back links, with the tail pointer as that of null. -/
def backTo (pprev : Node → Node) (tail node : Node) : Node :=
  if node = .null then tail else pprev node

@[simp] theorem backTo_null (pprev : Node → Node) (tail : Node) : backTo pprev tail .null = tail :=
  if_pos rfl

@[simp] theorem backTo_rdllink (pprev : Node → Node) (tail : Node) (x : Nat) :
    backTo pprev tail (.rdllink x) = pprev (.rdllink x) :=
  if_neg nofun

namespace Eventpoll

variable {ep ep' : Eventpoll} {l l₁ l₂ : List Nat} {x : Nat} {head tail : Node}

/-- The ready list is well formed and has these items, in this order. -/
structure Ready (ep : Eventpoll) (l : List Nat) : Prop where
  walk : Walk ep.next (backTo ep.pprev ep.tail) .list (nodes l) .null
  distinct : l.Nodup

/-- A part of a list that was taken off: its items from `head` on, `tail` at the last one. -/
def Detached (ep : Eventpoll) (head tail : Node) : List Nat → Prop
  | [] => head = .null
  | x :: l =>
    head = .rdllink x ∧ Walk ep.next (backTo ep.pprev tail) (.rdllink x) (nodes l) .null

theorem Ready.tail_eq (ready : ep.Ready l) : ep.tail = (nodes l).getLastD .list := by
  simpa using ready.walk.prev_end

theorem Ready.tail_mem (ready : ep.Ready l) : ep.tail ∈ Node.list :: nodes l := by
  rw [ready.tail_eq]
  exact getLastD_mem (nodes l) .list

theorem Ready.tail_ne_null (ready : ep.Ready l) : ep.tail ≠ .null := by
  intro null
  have member := ready.tail_mem
  simp [null] at member

theorem Ready.tail_ne (ready : ep.Ready l) (fresh : x ∉ l) : ep.tail ≠ .rdllink x := by
  intro same
  have member := ready.tail_mem
  simp [same, fresh] at member

theorem Ready.sources (ready : ep.Ready l) : (Node.list :: nodes l).Nodup := by
  simp [nodes_nodup ready.distinct]

theorem Ready.targets (ready : ep.Ready l) : (nodes l ++ [Node.null]).Nodup := by
  rw [List.nodup_append_comm]
  simp [nodes_nodup ready.distinct]

theorem Ready.linked_of_mem (ready : ep.Ready l) (member : x ∈ l) :
    ep.linked (.rdllink x) = true := by
  obtain ⟨l₁, l₂, rfl⟩ := List.append_of_mem member
  have walk := ready.walk
  rw [nodes_append, nodes_cons] at walk
  have previous := walk.around.1
  have place := getLastD_mem (nodes l₁) Node.list
  rw [← previous, backTo_rdllink] at place
  apply decide_eq_true
  intro null
  simp [null] at place

/-- Walks from one node to null pass the same items. -/
theorem nodes_unique {next prev prev' : Node → Node} {start : Node} {l l' : List Nat}
    (first : Walk next prev start (nodes l) .null)
    (second : Walk next prev' start (nodes l') .null) : l = l' := by
  induction l generalizing start l' with
  | nil =>
    cases l' with
    | nil => rfl
    | cons y l' => exact absurd (first.1.symm.trans second.1) nofun
  | cons x l ih =>
    cases l' with
    | nil => exact absurd (first.1.symm.trans second.1) nofun
    | cons y l' =>
      have same : x = y := Node.rdllink.inj (first.1.symm.trans second.1)
      subst same
      rw [ih first.2.2 second.2.2]

/-- An item is on the ready list. -/
def OnReady (ep : Eventpoll) (x : Nat) : Prop := ∃ l, ep.Ready l ∧ x ∈ l

theorem Ready.mem_of_onReady (ready : ep.Ready l) (onReady : ep.OnReady x) : x ∈ l := by
  obtain ⟨l', ready', member⟩ := onReady
  rw [nodes_unique ready.walk ready'.walk]
  exact member

theorem Detached.unique (first : ep.Detached head tail l₁) (second : ep.Detached head tail l₂) :
    l₁ = l₂ := by
  cases l₁ with
  | nil =>
    cases l₂ with
    | nil => rfl
    | cons y l => exact absurd (Eq.trans (Eq.symm first) second.1) nofun
  | cons x l =>
    cases l₂ with
    | nil => exact absurd (Eq.trans (Eq.symm second) first.1) nofun
    | cons y l' =>
      have same : x = y := Node.rdllink.inj (first.1.symm.trans second.1)
      subst same
      rw [nodes_unique first.2 second.2]

theorem Ready.hlistEmpty_iff (ready : ep.Ready l) : ep.hlistEmpty = true ↔ l = [] := by
  have first := ready.walk.next_start
  cases l with
  | nil => simpa [hlistEmpty] using first
  | cons x l => simp [hlistEmpty, first]

/-! ## What the list does not depend on -/

theorem Ready.congr (ready : ep.Ready l)
    (forward : ∀ c ∈ Node.list :: nodes l, ep'.next c = ep.next c)
    (backward : ∀ i ∈ l, ep'.pprev (.rdllink i) = ep.pprev (.rdllink i))
    (tail : ep'.tail = ep.tail) : ep'.Ready l := by
  refine ⟨ready.walk.congr forward ?_, ready.distinct⟩
  intro c member
  rcases List.mem_append.mp member with inside | last
  · obtain ⟨i, place, rfl⟩ := List.mem_map.mp inside
    simpa using backward i place
  · simp [List.mem_singleton.mp last, tail]

/-- A detached part depends on the links of its own nodes. -/
theorem Detached.congr (detached : ep.Detached head tail l)
    (forward : ∀ i ∈ l, ep'.next (.rdllink i) = ep.next (.rdllink i))
    (backward : ∀ i ∈ l.tail, ep'.pprev (.rdllink i) = ep.pprev (.rdllink i)) :
    ep'.Detached head tail l := by
  cases l with
  | nil => exact detached
  | cons x l =>
    refine ⟨detached.1, detached.2.congr ?_ ?_⟩
    · intro c member
      rw [← nodes_cons] at member
      obtain ⟨i, place, rfl⟩ := List.mem_map.mp member
      exact forward i place
    · intro c member
      rcases List.mem_append.mp member with inside | last
      · obtain ⟨i, place, rfl⟩ := List.mem_map.mp inside
        simpa using backward i place
      · simp [List.mem_singleton.mp last]

/-! ## Links after each operation -/

theorem initNode_next_of_ne {n c : Node} (other : c ≠ n) : (ep.initNode n).next c = ep.next c :=
  Function.update_of_ne other _ _

theorem initNode_pprev_of_ne {n c : Node} (other : c ≠ n) :
    (ep.initNode n).pprev c = ep.pprev c :=
  Function.update_of_ne other _ _

@[simp] theorem initNode_pprev (n : Node) : (ep.initNode n).pprev n = .null :=
  Function.update_self n _ _

@[simp] theorem hlistAddTail_pprev (n : Node) : (ep.hlistAddTail n).pprev n = ep.tail :=
  Function.update_self n _ _

theorem hlistAddTail_pprev_of_ne {n c : Node} (other : c ≠ n) :
    (ep.hlistAddTail n).pprev c = ep.pprev c := by
  show Function.update (ep.initNode n).pprev n ep.tail c = ep.pprev c
  rw [Function.update_of_ne other, initNode_pprev_of_ne other]

theorem hlistAddTail_next_of_ne {n c : Node} (other : c ≠ n) (inner : c ≠ ep.tail) :
    (ep.hlistAddTail n).next c = ep.next c := by
  show Function.update (ep.initNode n).next ep.tail n c = ep.next c
  rw [Function.update_of_ne inner, initNode_next_of_ne other]

/-! ## The operations on the list -/

/-- Adding at the tail. -/
theorem Ready.hlistAddTail (ready : ep.Ready l) (fresh : x ∉ l) :
    (ep.hlistAddTail (.rdllink x)).Ready (l ++ [x]) := by
  have walk : Walk ep.next (backTo ep.pprev ep.tail) .list (nodes l ++ []) .null := by
    simpa using ready.walk
  have longer := walk.insert (by simpa using ready.sources) (by simpa using ready.targets)
    (x := Node.rdllink x) (by simp [fresh]) nofun
  rw [← ready.tail_eq] at longer
  constructor
  · rw [nodes_append]
    apply longer.congr
    · intro c member
      show Function.update (Function.update ep.next _ _) ep.tail (.rdllink x) c = _
      rw [Function.update_comm (ready.tail_ne fresh)]
      rfl
    · intro c member
      by_cases null : c = .null
      · subst null
        have other : Node.null ≠ .rdllink x := nofun
        rw [backTo_null, Function.update_of_ne other]
        show Node.rdllink x = Function.update (backTo ep.pprev ep.tail) .null (.rdllink x) .null
        rw [Function.update_self]
      · rw [backTo, if_neg null]
        by_cases new : c = .rdllink x
        · rw [new, hlistAddTail_pprev, Function.update_self]
        · rw [hlistAddTail_pprev_of_ne new, Function.update_of_ne new,
            Function.update_of_ne (by exact null), backTo, if_neg null]
  · apply List.nodup_append.mpr
    refine ⟨ready.distinct, List.nodup_singleton x, ?_⟩
    intro a first b second same
    exact fresh (List.mem_singleton.mp second ▸ same ▸ first)

theorem ready_hlistInit (ep : Eventpoll) : ep.hlistInit.Ready [] := by
  have first : Function.update ep.next Node.list Node.null Node.list = Node.null :=
    Function.update_self Node.list _ _
  exact ⟨⟨first, rfl⟩, List.nodup_nil⟩

theorem Ready.detach (ready : ep.Ready l) :
    ep.detach.Ready [] ∧ ep.detach.Detached (ep.next .list) ep.tail l := by
  have empty : ep.detach.Ready [] := (ready_hlistInit ep).congr (by intro c _; rfl) (by simp) rfl
  refine ⟨empty, ?_⟩
  have first := ready.walk.next_start
  cases l with
  | nil => exact first
  | cons x l =>
    refine ⟨first, ready.walk.2.2.congr ?_ ?_⟩
    · intro c member
      apply initNode_next_of_ne
      rintro rfl
      simp at member
    · intro c member
      show backTo (ep.initNode .list).pprev ep.tail c = _
      unfold backTo
      split
      · rfl
      · apply initNode_pprev_of_ne
        rintro rfl
        simp at member

/-- Taking the first node off a detached part. -/
theorem Detached.initNode (detached : ep.Detached head tail (x :: l)) (distinct : (x :: l).Nodup) :
    (ep.initNode (.rdllink x)).Detached (ep.next (.rdllink x)) tail l := by
  have first := detached.2.next_start
  have absent := (List.nodup_cons.mp distinct).1
  cases l with
  | nil => exact first
  | cons y l =>
    have rest : ep.Detached (.rdllink y) tail (y :: l) := ⟨rfl, detached.2.2.2⟩
    rw [first]
    apply rest.congr
    · intro i member
      apply initNode_next_of_ne
      intro same
      exact absent (Node.rdllink.inj same ▸ member)
    · intro i member
      apply initNode_pprev_of_ne
      intro same
      exact absent (Node.rdllink.inj same ▸ List.mem_of_mem_tail member)

/-- Putting a detached part back. -/
theorem Ready.putBack (ready : ep.Ready l₁) (detached : ep.Detached head tail l₂)
    (distinct : (l₁ ++ l₂).Nodup) : (ep.putBack head tail).Ready (l₁ ++ l₂) := by
  cases l₂ with
  | nil =>
    have done : ep.putBack head tail = ep := if_neg (not_not.mpr detached)
    rw [done, List.append_nil]
    exact ready
  | cons x l =>
    obtain ⟨rfl, walk⟩ := detached
    have disjoint := List.nodup_append.mp distinct
    have fresh : x ∉ l₁ := fun member => disjoint.2.2 x member x (by simp) rfl
    have absent := (List.nodup_cons.mp disjoint.2.1).1
    refine ⟨?_, distinct⟩
    rw [nodes_append, nodes_cons, walk_append]
    have first := ready.walk.redirect (.rdllink x) ready.sources (by simpa using fresh)
    rw [← ready.tail_eq] at first
    constructor
    · apply first.congr
      · intro c member
        rfl
      · intro c member
        have inner : c ≠ .null := by
          rintro rfl
          simp at member
        show backTo (Function.update ep.pprev _ _) tail c = _
        rw [backTo, if_neg inner]
        by_cases same : c = .rdllink x
        · rw [same, Function.update_self, Function.update_self]
        · rw [Function.update_of_ne same, Function.update_of_ne same, backTo, if_neg inner]
    · apply walk.congr
      · intro c member
        apply Function.update_of_ne
        intro same
        have place := ready.tail_mem
        rw [← same] at place
        rcases List.mem_cons.mp place with head | inside
        · rw [head] at member
          simp at member
        · obtain ⟨i, old, rfl⟩ := List.mem_map.mp inside
          rw [← nodes_cons, rdllink_mem_nodes] at member
          exact disjoint.2.2 i old i member rfl
      · intro c member
        show backTo (Function.update ep.pprev _ _) tail c = _
        unfold backTo
        split
        · rfl
        · apply Function.update_of_ne
          rintro rfl
          simp [absent] at member

theorem hlistDel_next_of_ne {n c : Node} (linked : ep.linked n = true) (other : c ≠ n) :
    (ep.hlistDel n).next c = Function.update ep.next (ep.pprev n) (ep.next n) c := by
  rw [hlistDel, if_pos linked]
  show (Eventpoll.initNode _ n).next c = _
  rw [initNode_next_of_ne other]
  split <;> rfl

/-- Where the back links and the tail go when a node is deleted. -/
theorem hlistDel_back_of_ne {n c : Node} (linked : ep.linked n = true) (self : n ≠ ep.pprev n)
    (other : c ≠ n) : backTo (ep.hlistDel n).pprev (ep.hlistDel n).tail c =
      Function.update (backTo ep.pprev ep.tail) (ep.next n) (ep.pprev n) c := by
  rw [hlistDel, if_pos linked]
  show backTo (Eventpoll.initNode _ n).pprev (Eventpoll.initNode _ n).tail c = _
  have back (around : Eventpoll) : backTo (around.initNode n).pprev (around.initNode n).tail c =
      backTo around.pprev around.tail c := by
    unfold backTo
    rw [initNode_pprev_of_ne other]
    rfl
  rw [back]
  have same : Function.update ep.next (ep.pprev n) (ep.next n) n = ep.next n :=
    Function.update_of_ne self _ _
  split
  case isTrue inner =>
    -- the node behind it gets a new back link
    replace inner : ep.next n ≠ .null := same ▸ inner
    show
      backTo (Function.update ep.pprev (Function.update ep.next _ _ n) (ep.pprev n)) ep.tail c = _
    rw [same]
    by_cases null : c = .null
    · rw [null, backTo_null, Function.update_of_ne inner.symm, backTo_null]
    · by_cases next : c = ep.next n
      · rw [backTo, if_neg null, next, Function.update_self, Function.update_self]
      · rw [backTo, if_neg null, Function.update_of_ne next, Function.update_of_ne next, backTo,
          if_neg null]
  case isFalse last =>
    -- it is the last one, and the tail moves back
    replace last : ep.next n = .null := by
      rw [← same]
      exact not_not.mp last
    show backTo ep.pprev (ep.pprev n) c = _
    rw [last]
    by_cases null : c = .null
    · rw [null, backTo_null, Function.update_self]
    · rw [backTo, if_neg null, Function.update_of_ne null, backTo, if_neg null]

theorem Ready.pprev_ne (ready : ep.Ready (l₁ ++ x :: l₂)) :
    Node.rdllink x ≠ ep.pprev (.rdllink x) := by
  have walk := ready.walk
  rw [nodes_append, nodes_cons] at walk
  have previous := walk.around.1
  have place := getLastD_mem (nodes l₁) Node.list
  rw [backTo_rdllink] at previous
  rw [← previous] at place
  intro same
  rw [← same] at place
  have inside : x ∈ l₁ := by simpa using place
  have absent := (List.nodup_cons.mp (List.nodup_middle.mp ready.distinct)).1
  exact absent (List.mem_append_left l₂ inside)

theorem Ready.hlistDel (ready : ep.Ready (l₁ ++ x :: l₂)) :
    (ep.hlistDel (.rdllink x)).Ready (l₁ ++ l₂) := by
  have walk : Walk ep.next (backTo ep.pprev ep.tail) .list (nodes l₁ ++ .rdllink x :: nodes l₂)
      .null := by
    simpa using ready.walk
  have shorter := walk.remove (by simpa using ready.sources) (by simpa using ready.targets)
  rw [backTo_rdllink] at shorter
  obtain ⟨absent, distinct⟩ := List.nodup_cons.mp (List.nodup_middle.mp ready.distinct)
  have linked := ready.linked_of_mem (x := x) (by simp)
  refine ⟨?_, distinct⟩
  rw [nodes_append]
  apply shorter.congr
  · intro c member
    apply hlistDel_next_of_ne linked
    rintro rfl
    simp_all
  · intro c member
    apply hlistDel_back_of_ne linked ready.pprev_ne
    rintro rfl
    simp_all

/-- Deleting a node leaves the others linked or not as they are. -/
theorem Ready.hlistDel_linked (ready : ep.Ready (l₁ ++ x :: l₂)) {i : Nat} (other : i ≠ x) :
    (ep.hlistDel (.rdllink x)).linked (.rdllink i) = ep.linked (.rdllink i) := by
  by_cases member : i ∈ l₁ ++ l₂
  · rw [ready.hlistDel.linked_of_mem member, ready.linked_of_mem]
    simp only [List.mem_append, List.mem_cons] at member ⊢
    tauto
  · have walk := ready.walk
    rw [nodes_append, nodes_cons] at walk
    have linked := ready.linked_of_mem (x := x) (by simp)
    have following := headD_mem (nodes l₂) Node.null
    have back := hlistDel_back_of_ne linked ready.pprev_ne (c := .rdllink i)
      (by simpa using other)
    have apart : Node.rdllink i ≠ ep.next (.rdllink x) := by
      intro same
      rw [← walk.around.2, ← same] at following
      have inside : i ∈ l₂ := by simpa using following
      exact member (List.mem_append_right l₁ inside)
    rw [Function.update_of_ne apart, backTo_rdllink, backTo_rdllink] at back
    simp [Eventpoll.linked, back]

/-! ## The list with its detached part -/

/-- The ready list and the part detached from it hold each linked item once. -/
structure Held (ep : Eventpoll) (queue : List Nat) (head tail : Node) (rest : List Nat) :
    Prop where
  ready : ep.Ready queue
  detached : ep.Detached head tail rest
  apart : (queue ++ rest).Nodup
  linked : ∀ i, ep.linked (.rdllink i) = true ↔ i ∈ queue ∨ i ∈ rest

variable {queue rest : List Nat}

theorem Held.rest_eq_nil (held : ep.Held queue .null tail rest) : rest = [] := by
  cases rest with
  | nil => rfl
  | cons x rest => exact absurd held.detached.1 nofun

theorem Held.congr (held : ep.Held queue head tail rest) (next : ep'.next = ep.next)
    (pprev : ep'.pprev = ep.pprev) (last : ep'.tail = ep.tail) :
    ep'.Held queue head tail rest := by
  refine ⟨held.ready.congr ?_ ?_ last, held.detached.congr ?_ ?_, held.apart, ?_⟩
  · intro c _
    rw [next]
  · intro i _
    rw [pprev]
  · intro i _
    rw [next]
  · intro i _
    rw [pprev]
  · intro i
    rw [← held.linked i, Eventpoll.linked, Eventpoll.linked, pprev]

/-- Adding an item at the tail. -/
theorem Held.hlistAddTail (held : ep.Held queue head tail rest)
    (unlinked : ep.linked (.rdllink x) = false) :
    (ep.hlistAddTail (.rdllink x)).Held (queue ++ [x]) head tail rest := by
  have absent : x ∉ queue ∧ x ∉ rest := by
    rw [← not_or, ← held.linked x, unlinked]
    simp
  have disjoint := List.nodup_append.mp held.apart
  constructor
  · exact held.ready.hlistAddTail absent.1
  · apply held.detached.congr
    · intro i member
      apply hlistAddTail_next_of_ne
      · intro same
        exact absent.2 (Node.rdllink.inj same ▸ member)
      · intro same
        have place := held.ready.tail_mem
        rw [← same] at place
        exact disjoint.2.2 i (by simpa using place) i member rfl
    · intro i member
      apply hlistAddTail_pprev_of_ne
      intro same
      exact absent.2 (Node.rdllink.inj same ▸ List.mem_of_mem_tail member)
  · have perm : (queue ++ [x] ++ rest).Perm (x :: (queue ++ rest)) := by
      rw [List.append_assoc]
      exact List.perm_middle
    apply perm.nodup_iff.mpr
    exact List.nodup_cons.mpr ⟨by simpa using absent, held.apart⟩
  · intro i
    by_cases same : i = x
    · subst same
      have linked : (ep.hlistAddTail (.rdllink i)).linked (.rdllink i) = true := by
        simp [Eventpoll.linked, held.ready.tail_ne_null]
      simp [linked]
    · have other : Node.rdllink i ≠ .rdllink x := by simpa using same
      have old := held.linked i
      rw [Eventpoll.linked] at old ⊢
      rw [hlistAddTail_pprev_of_ne other, old]
      simp [same]

/-- Deleting an item of the list. -/
theorem Held.hlistDel (held : ep.Held (l₁ ++ x :: l₂) head tail rest) :
    (ep.hlistDel (.rdllink x)).Held (l₁ ++ l₂) head tail rest := by
  have disjoint := List.nodup_append.mp held.apart
  have outside : ∀ i ∈ rest, i ∉ l₁ ++ x :: l₂ := fun i later early =>
    disjoint.2.2 i early i later rfl
  have linked := held.ready.linked_of_mem (x := x) (by simp)
  have walk := held.ready.walk
  rw [nodes_append, nodes_cons] at walk
  have place := getLastD_mem (nodes l₁) Node.list
  have following := headD_mem (nodes l₂) Node.null
  rw [← walk.around.1, backTo_rdllink] at place
  rw [← walk.around.2] at following
  have other : ∀ i ∈ rest, Node.rdllink i ≠ .rdllink x := by
    intro i member same
    exact outside i member (by simp [Node.rdllink.inj same])
  constructor
  · exact held.ready.hlistDel
  · apply held.detached.congr
    · intro i member
      rw [hlistDel_next_of_ne linked (other i member)]
      apply Function.update_of_ne
      intro same
      rw [← same] at place
      have inside : i ∈ l₁ := by simpa using place
      exact outside i member (by simp [inside])
    · intro i member
      have inner := List.mem_of_mem_tail member
      have back := hlistDel_back_of_ne linked held.ready.pprev_ne (other i inner)
      rw [Function.update_of_ne, backTo_rdllink, backTo_rdllink] at back
      · exact back
      · intro same
        rw [← same] at following
        have inside : i ∈ l₂ := by simpa using following
        exact outside i inner (by simp [inside])
  · have perm : (l₁ ++ x :: l₂ ++ rest).Perm (x :: (l₁ ++ l₂ ++ rest)) := by
      rw [List.append_assoc, List.append_assoc]
      exact List.perm_middle
    exact (List.nodup_cons.mp (perm.nodup_iff.mp held.apart)).2
  · intro i
    by_cases same : i = x
    · subst same
      have gone : (ep.hlistDel (.rdllink i)).linked (.rdllink i) = false := by
        rw [Eventpoll.hlistDel, if_pos linked]
        simp [Eventpoll.linked]
      have absent := (List.nodup_cons.mp (List.nodup_middle.mp held.ready.distinct)).1
      have notRest : i ∉ rest := fun member => outside i member (by simp)
      simpa [gone, notRest] using absent
    · rw [held.ready.hlistDel_linked same, held.linked i]
      simp [same]

theorem Held.detach (held : ep.Held queue .null tail []) :
    ep.detach.Held [] (ep.next .list) ep.tail queue := by
  obtain ⟨empty, detached⟩ := held.ready.detach
  refine ⟨empty, detached, by simpa using held.apart, ?_⟩
  intro i
  have same : ep.detach.linked (.rdllink i) = ep.linked (.rdllink i) := by
    have other : (ep.initNode .list).pprev (.rdllink i) = ep.pprev (.rdllink i) :=
      initNode_pprev_of_ne nofun
    exact congrArg (fun node => decide (node ≠ Node.null)) other
  rw [same, held.linked i]
  simp

/-- Taking the first item off the detached part. -/
theorem Held.initNode (held : ep.Held queue head tail (x :: rest)) :
    (ep.initNode (.rdllink x)).Held queue (ep.next (.rdllink x)) tail rest := by
  have perm : (queue ++ x :: rest).Perm (x :: (queue ++ rest)) := List.perm_middle
  obtain ⟨absent, apart⟩ := List.nodup_cons.mp (perm.nodup_iff.mp held.apart)
  have other : ∀ i ∈ queue, Node.rdllink i ≠ .rdllink x := by
    intro i member same
    exact absent (by simp [← Node.rdllink.inj same, member])
  constructor
  · apply held.ready.congr
    · intro c member
      apply initNode_next_of_ne
      rintro rfl
      have inside : x ∈ queue := by simpa using member
      exact absent (by simp [inside])
    · intro i member
      exact initNode_pprev_of_ne (other i member)
    · rfl
  · exact held.detached.initNode (List.nodup_append.mp held.apart).2.1
  · exact apart
  · intro i
    by_cases same : i = x
    · subst same
      have gone : (ep.initNode (.rdllink i)).linked (.rdllink i) = false := by
        simp [Eventpoll.linked]
      simp [gone, ← List.mem_append, absent]
    · have other : Node.rdllink i ≠ .rdllink x := by simpa using same
      have old := held.linked i
      rw [Eventpoll.linked] at old ⊢
      rw [initNode_pprev_of_ne other, old]
      simp [same]

theorem Held.putBack (held : ep.Held queue head tail rest) (tail' : Node) :
    (ep.putBack head tail).Held (queue ++ rest) .null tail' [] := by
  refine ⟨held.ready.putBack held.detached held.apart, rfl, by simpa using held.apart, ?_⟩
  intro i
  rw [List.mem_append]
  simp only [List.not_mem_nil, or_false]
  rw [← held.linked i]
  cases rest with
  | nil =>
    have done : ep.putBack head tail = ep := if_neg (not_not.mpr held.detached)
    rw [done]
  | cons x rest =>
    have first : head = .rdllink x := held.detached.1
    subst first
    by_cases same : i = x
    · subst same
      have before : ep.linked (.rdllink i) = true := (held.linked i).mpr (by simp)
      have after : (ep.putBack (.rdllink i) tail).linked (.rdllink i) = true := by
        simp [Eventpoll.putBack, Eventpoll.linked, held.ready.tail_ne_null]
      rw [before, after]
    · have other : Node.rdllink i ≠ .rdllink x := by simpa using same
      simp [Eventpoll.putBack, Eventpoll.linked, Function.update_of_ne other]

end Eventpoll

end Dmm.Epoll
