import Mathlib

/-!
# What a delete message closes

`do_try_delconn` takes the control block it closes from `comm_receiver` in the header of the
message, or from the connection if that field is zero. `sbr_handle_close` sets the field;
`sbr_handle_recycle_conn` leaves in it what an earlier use of the message left there.

The record `touched` lists the connections that are closed, dropped or drained, with `none` for
memory that is no control block; the use of a null pointer halts the stack.
-/

namespace Dmm.Netconn.Delete

/-! ## Connections -/

/-- A `spl_netconn`, by the place it is stored at. -/
abbrev ConnId := Nat

/-- A `common_pcb`, by the place it is stored at. -/
abbrev CpcbId := Nat

/-- The parts of a `spl_netconn` that are used: is `private_data` set, `comm_pcb_data`,
`accept_from`, is the pid array empty, and `is_listen_conn`. -/
structure Conn where
  linked : Bool
  comm : Option CpcbId
  acceptFrom : Option ConnId
  owned : Bool
  listens : Bool
  deriving DecidableEq, Repr

/-- The parts of a `common_pcb` that are used. -/
structure Cpcb where
  conn : Option ConnId
  closeProgress : Bool
  deriving DecidableEq, Repr

/-- The stack; `group` is `conn_array`, and `ring` the accept ring of a connection. -/
structure World where
  conns : ConnId → Conn
  cpcbs : CpcbId → Cpcb
  group : List ConnId
  ring : ConnId → List ConnId
  touched : List (Option ConnId)
  halted : Bool

/-- `comm_receiver`: a control block, or the address of a field that `_do_newconn` writes. -/
inductive Receiver
  | cpcb (k : CpcbId)
  | field (c : ConnId)
  deriving DecidableEq, Repr

/-- An earlier use of a message. -/
inductive Use
  /-- `sbr_construct_msg`, with the control block of the connection. -/
  | construct (comm : Option CpcbId)
  /-- `_do_newconn` -/
  | newconn (c : ConnId)
  /-- `sbr_handle_recycle_conn` -/
  | recycle
  deriving DecidableEq, Repr

/-- `comm_receiver` after some uses of a message, which is zero at first. -/
def leftover (uses : List Use) : Option Receiver :=
  uses.foldl (fun header use =>
    match use with
    | .construct comm => comm.map .cpcb
    | .newconn c => some (.field c)
    | .recycle => header) none

/-- Who builds the delete message. -/
inductive Builder
  | handleClose
  | handleRecycleConn
  deriving DecidableEq, Repr

/-- `comm_receiver` of the delete message for a connection. -/
def header (builder : Builder) (uses : List Use) (w : World) (c : ConnId) : Option Receiver :=
  match builder with
  | .handleClose => leftover (uses ++ [.construct (w.conns c).comm])
  | .handleRecycleConn => leftover (uses ++ [.recycle])

/-! ## Deleting -/

/-- A connection is closed, dropped or drained. -/
def World.touch (w : World) (c : ConnId) : World := { w with touched := w.touched ++ [some c] }

/-- `do_delconn`: the pcb of the connection of the control block is closed and its ring drained. -/
def doDelconn (k : CpcbId) (w : World) : World :=
  if (w.cpcbs k).closeProgress then w
  else
    match (w.cpcbs k).conn with
    | none => { w with halted := true }
    | some d =>
      { w with
        cpcbs := Function.update w.cpcbs k { w.cpcbs k with closeProgress := true }
        conns := Function.update w.conns d { w.conns d with linked := false } }.touch d

/-- `do_try_delconn` without a delay. -/
def doTryDelconn (header : Option Receiver) (c : ConnId) (w : World) : World :=
  if (w.conns c).linked = false then w.touch c
  else
    match header with
    | some (.cpcb k) => doDelconn k w
    | some (.field _) => { w with touched := w.touched ++ [none], halted := true }
    | none =>
      match (w.conns c).comm with
      | none => { w with halted := true }
      | some k => doDelconn k w

/-- `tcp_drop_conn`, with `common_pcb_reset` and `ss_reset_conn` for the connection. -/
def tcpDropConn (c : ConnId) (w : World) : World :=
  { w with
    conns := Function.update w.conns c ⟨false, none, none, false, false⟩
    cpcbs := fun k => if (w.conns c).comm = some k then ⟨none, false⟩ else w.cpcbs k }.touch c

/-- A connection that was accepted from another and has no owner. -/
def World.Lost (w : World) (c x : ConnId) : Prop :=
  (w.conns x).acceptFrom = some c ∧ (w.conns x).owned = false

instance (w : World) (c x : ConnId) : Decidable (w.Lost c x) := inferInstanceAs (Decidable (_ ∧ _))

/-- One turn of the loop of `ss_close_conn_now` over the connections. -/
def recycleLost (header : Option Receiver) (c : ConnId) (w : World) (x : ConnId) : World :=
  if w.halted then w
  else if w.Lost c x then
    let w := doTryDelconn header x w
    if w.halted then w else tcpDropConn x w
  else w

/-- `tcp_free_accept_ring` -/
def tcpFreeAcceptRing (c : ConnId) (w : World) : World :=
  (w.ring c).foldl (fun w x => tcpDropConn x w) w

/-- `ss_close_conn_now` with `SS_DELAY_STOPPED`, as far as connections are closed and drained. -/
def ssCloseConnNow (header : Option Receiver) (c : ConnId) (w : World) : World :=
  let w := doTryDelconn header c w
  if w.halted then w
  else
    let w :=
      if (w.conns c).listens then w.group.foldl (recycleLost header c) (tcpFreeAcceptRing c w)
      else w
    if w.halted then w else w.touch c

/-! ## The frame -/

/-- The connection itself, and what was accepted from it and has no owner. -/
def World.Allowed (w : World) (c d : ConnId) : Prop :=
  d = c ∨ (w.conns c).listens = true ∧ (d ∈ w.ring c ∨ d ∈ w.group ∧ w.Lost c d)

/-- Nothing but what may be is closed, dropped or drained. -/
def Framed (may : ConnId → Prop) (t : World) : Prop := ∀ e ∈ t.touched, ∃ d, e = some d ∧ may d

/-- A connection that `do_try_delconn` is called for. -/
def World.Target (w : World) (c x : ConnId) : Prop :=
  x = c ∨ (w.conns c).listens = true ∧ x ∈ w.group ∧ w.Lost c x ∧ x ∉ w.ring c

/-- The header names a control block of a connection that may not be touched and is not being
closed, or no control block at all. -/
def World.Stale (w : World) (may : ConnId → Prop) : Option Receiver → Prop
  | none => False
  | some (.field _) => True
  | some (.cpcb k) => (w.cpcbs k).closeProgress = false ∧ ∃ d, (w.cpcbs k).conn = some d ∧ ¬may d

/-- Control blocks are those of their connections. -/
def World.Wf (w : World) : Prop := ∀ x k, (w.conns x).comm = some k → (w.cpcbs k).conn = some x

/-- What steps leave: the record grows, and connections lose their pcbs or are freed. -/
structure Less (w t : World) : Prop where
  touched : ∀ e ∈ w.touched, e ∈ t.touched
  conns : ∀ x, t.conns x = w.conns x ∨ t.conns x = { w.conns x with linked := false } ∨
    t.conns x = ⟨false, none, none, false, false⟩
  cpcbs : ∀ k, (t.cpcbs k).conn = (w.cpcbs k).conn ∧
    ((w.cpcbs k).closeProgress = true → (t.cpcbs k).closeProgress = true) ∨
      (t.cpcbs k).conn = none
  rest : t.group = w.group ∧ t.ring = w.ring
  wf : w.Wf → t.Wf

section Steps

variable {may : ConnId → Prop} {r : Option Receiver} {c x y : ConnId} {w t u : World}

theorem Less.refl (w : World) : Less w w :=
  ⟨fun _ mem => mem, fun _ => .inl rfl, fun _ => .inl ⟨rfl, id⟩, ⟨rfl, rfl⟩, id⟩

theorem Less.trans (first : Less w t) (second : Less t u) : Less w u where
  touched := fun e mem => second.touched e (first.touched e mem)
  conns := by
    intro x
    have one := first.conns x
    have two := second.conns x
    grind
  cpcbs := by
    intro k
    have one := first.cpcbs k
    have two := second.cpcbs k
    grind
  rest := ⟨second.rest.1.trans first.rest.1, second.rest.2.trans first.rest.2⟩
  wf := fun wf => second.wf (first.wf wf)

theorem Less.linked (less : Less w t) (linked : (t.conns x).linked = true) :
    t.conns x = w.conns x := by
  have conns := less.conns x
  grind

theorem Less.listens (less : Less w t) (listens : (t.conns c).listens = true) :
    (w.conns c).listens = true := by
  have conns := less.conns c
  grind

theorem Less.lost (less : Less w t) (lost : t.Lost c x) : w.Lost c x := by
  have conns := less.conns x
  unfold World.Lost at *
  grind

theorem Less.stale (less : Less w t) (stale : t.Stale may r) : w.Stale may r := by
  match r, stale with
  | some (.field _), _ => trivial
  | some (.cpcb k), stale =>
    have cpcbs := less.cpcbs k
    simp only [World.Stale] at stale ⊢
    grind

theorem doDelconn_less (k : CpcbId) (w : World) : Less w (doDelconn k w) := by
  unfold doDelconn
  split
  · exact .refl w
  split
  · exact ⟨fun _ mem => mem, fun _ => .inl rfl, fun _ => .inl ⟨rfl, id⟩, ⟨rfl, rfl⟩, id⟩
  · refine ⟨fun e mem => List.mem_append_left _ mem, ?_, ?_, ⟨rfl, rfl⟩, ?_⟩
    all_goals simp only [World.touch, World.Wf, Function.update_apply]
    all_goals grind

theorem doTryDelconn_less (r : Option Receiver) (c : ConnId) (w : World) :
    Less w (doTryDelconn r c w) := by
  have halts : Less w { w with halted := true } :=
    ⟨fun _ mem => mem, fun _ => .inl rfl, fun _ => .inl ⟨rfl, id⟩, ⟨rfl, rfl⟩, id⟩
  unfold doTryDelconn
  split
  · exact ⟨fun e mem => List.mem_append_left _ mem, fun _ => .inl rfl, fun _ => .inl ⟨rfl, id⟩,
      ⟨rfl, rfl⟩, id⟩
  split
  · exact doDelconn_less _ w
  · exact ⟨fun e mem => List.mem_append_left _ mem, fun _ => .inl rfl, fun _ => .inl ⟨rfl, id⟩,
      ⟨rfl, rfl⟩, id⟩
  split
  · exact halts
  · exact doDelconn_less _ w

theorem tcpDropConn_less (c : ConnId) (w : World) : Less w (tcpDropConn c w) := by
  refine ⟨fun e mem => List.mem_append_left _ mem, ?_, ?_, ⟨rfl, rfl⟩, ?_⟩
  all_goals simp only [tcpDropConn, World.touch, World.Wf, Function.update_apply]
  all_goals grind

theorem recycleLost_less (r : Option Receiver) (c x : ConnId) (w : World) :
    Less w (recycleLost r c w x) := by
  unfold recycleLost
  split
  · exact .refl w
  split
  · dsimp only
    split
    · exact doTryDelconn_less r x w
    · exact (doTryDelconn_less r x w).trans (tcpDropConn_less x _)
  · exact .refl w

theorem Less.foldl {f : World → ConnId → World} (less : ∀ w x, Less w (f w x)) (l : List ConnId)
    (w : World) : Less w (l.foldl f w) := by
  induction l generalizing w with
  | nil => exact .refl w
  | cons x l continued => exact (less w x).trans (continued (f w x))

/-! ## Without a stale header -/

/-- `do_try_delconn` for a connection that may be touched. -/
theorem Framed.doTryDelconn (framed : Framed may w) (wf : w.Wf) (own : may x)
    (fresh : (w.conns x).linked = true → ¬w.Stale may r) :
    Framed may (doTryDelconn r x w) := by
  have closes {k : CpcbId} (good : (w.cpcbs k).closeProgress = false → ∀ d,
      (w.cpcbs k).conn = some d → may d) : Framed may (doDelconn k w) := by
    unfold doDelconn
    split
    · exact framed
    split
    · exact framed
    · rename_i open_ _ d conn
      intro e mem
      rcases List.mem_append.mp mem with old | new
      · exact framed e old
      · exact ⟨d, List.mem_singleton.mp new, good (by simpa using open_) d conn⟩
  unfold Delete.doTryDelconn
  split
  · intro e mem
    rcases List.mem_append.mp mem with old | new
    · exact framed e old
    · exact ⟨x, List.mem_singleton.mp new, own⟩
  · rename_i linked
    have fresh := fresh (by simpa using linked)
    split
    · refine closes fun open_ d conn => ?_
      by_contra other
      exact fresh ⟨open_, d, conn, other⟩
    · exact absurd trivial fresh
    split
    · exact framed
    · rename_i comm
      refine closes fun _ d conn => ?_
      rw [wf x _ comm] at conn
      exact Option.some.inj conn ▸ own

theorem Framed.tcpDropConn (framed : Framed may w) (own : may x) :
    Framed may (tcpDropConn x w) := by
  intro e mem
  rcases List.mem_append.mp mem with old | new
  · exact framed e old
  · exact ⟨x, List.mem_singleton.mp new, own⟩

theorem tcpFreeAcceptRing_lost (l : List ConnId) (mem : x ∈ l) (w : World) :
    ¬(l.foldl (fun w y => tcpDropConn y w) w).Lost c x := by
  induction l generalizing w with
  | nil => cases mem
  | cons y l continued =>
    rw [List.foldl_cons]
    by_cases same : x = y
    · subst same
      intro lost
      have before := (Less.foldl (fun w y => tcpDropConn_less y w) l (tcpDropConn x w)).lost lost
      simp [World.Lost, tcpDropConn, World.touch] at before
    · exact continued ((List.mem_cons.mp mem).resolve_left same) _

/-- Without a stale header, or with no pcb to close, only what may be is touched. -/
theorem ssCloseConnNow_framed (wf : w.Wf) (start : w.touched = [])
    (fresh : ∀ x, w.Target c x → (w.conns x).linked = true → ¬w.Stale (w.Allowed c) r) :
    Framed (w.Allowed c) (ssCloseConnNow r c w) := by
  have first : Framed (w.Allowed c) (doTryDelconn r c w) :=
    Framed.doTryDelconn (by simp [Framed, start]) wf (.inl rfl) (fresh c (.inl rfl))
  have less := doTryDelconn_less r c w
  have touches {t : World} (framed : Framed (w.Allowed c) t) :
      Framed (w.Allowed c) (if t.halted then t else t.touch c) := by
    split
    · exact framed
    · intro e mem
      rcases List.mem_append.mp mem with old | new
      · exact framed e old
      · exact ⟨c, List.mem_singleton.mp new, .inl rfl⟩
  unfold ssCloseConnNow
  dsimp only
  split
  · exact first
  refine touches ?_
  split
  · rename_i listens
    have listens := less.listens listens
    have ring := Less.foldl (fun w y => tcpDropConn_less y w) ((doTryDelconn r c w).ring c)
      (doTryDelconn r c w)
    have dropped : Framed (w.Allowed c) (tcpFreeAcceptRing c (doTryDelconn r c w)) := by
      refine List.foldlRecOn (motive := Framed (w.Allowed c)) _ _ first fun t framed x mem => ?_
      rw [less.rest.2] at mem
      exact framed.tcpDropConn (.inr ⟨listens, .inl mem⟩)
    refine (List.foldlRecOn (motive := fun t => Framed (w.Allowed c) t ∧
      Less (tcpFreeAcceptRing c (doTryDelconn r c w)) t) _ _ ⟨dropped, .refl _⟩ ?_).1
    rintro t ⟨framed, later⟩ x mem
    have all := (less.trans ring).trans later
    refine ⟨?_, later.trans (recycleLost_less r c x t)⟩
    rw [less.rest.1] at mem
    unfold recycleLost
    split
    · exact framed
    split
    · rename_i lost
      have target : w.Target c x := by
        refine .inr ⟨listens, mem, all.lost lost, fun in_ring => ?_⟩
        rw [← less.rest.2] at in_ring
        exact tcpFreeAcceptRing_lost _ in_ring _ (later.lost lost)
      have own : w.Allowed c x := .inr ⟨listens, .inr ⟨mem, all.lost lost⟩⟩
      have closed := framed.doTryDelconn (r := r) (all.wf wf) own fun linked stale =>
        fresh x target (all.linked linked ▸ linked) (all.stale stale)
      dsimp only
      split
      · exact closed
      · exact closed.tcpDropConn own
    · exact framed
  · exact first

/-! ## With a stale header -/

/-- Something that may not be touched is. -/
def Hit (may : ConnId → Prop) (t : World) : Prop := ∃ e ∈ t.touched, ∀ d, e = some d → ¬may d

theorem Hit.mono (hit : Hit may w) (less : Less w t) : Hit may t := by
  obtain ⟨e, mem, other⟩ := hit
  exact ⟨e, less.touched e mem, other⟩

/-- `do_try_delconn` with a stale header for a connection with a pcb. -/
theorem hit_of_linked (stale : w.Stale may r) (linked : (w.conns x).linked = true) :
    Hit may (doTryDelconn r x w) := by
  unfold doTryDelconn
  rw [if_neg (by simp [linked])]
  match r, stale with
  | some (.field _), _ => exact ⟨none, by simp, by simp⟩
  | some (.cpcb k), ⟨open_, d, conn, other⟩ =>
    simp only [doDelconn, open_, conn]
    exact ⟨some d, by simp [World.touch], by simpa using other⟩

/-- The stale header was not used yet, and a connection has not changed. -/
structure Pending (may : ConnId → Prop) (r : Option Receiver) (x : ConnId) (w t : World) :
    Prop where
  running : t.halted = false
  stale : t.Stale may r
  same : t.conns x = w.conns x

theorem Pending.tcpDropConn (pending : Pending may r x w t) (wf : t.Wf) (own : may y)
    (other : y ≠ x) : Pending may r x w (tcpDropConn y t) where
  running := pending.running
  stale := by
    have stale := pending.stale
    match r, stale with
    | some (.field _), _ => trivial
    | some (.cpcb k), ⟨open_, d, conn, not_own⟩ =>
      have kept : (Delete.tcpDropConn y t).cpcbs k = t.cpcbs k := by
        refine if_neg fun comm => ?_
        rw [wf y k comm] at conn
        exact not_own (Option.some.inj conn ▸ own)
      rw [World.Stale, kept]
      exact ⟨open_, d, conn, not_own⟩
  same := (Function.update_of_ne other.symm _ _).trans pending.same

theorem Pending.doTryDelconn (pending : Pending may r x w t) :
    Hit may (doTryDelconn r y t) ∨
      (t.conns y).linked = false ∧ Pending may r x w (doTryDelconn r y t) := by
  cases linked : (t.conns y).linked with
  | true => exact .inl (hit_of_linked pending.stale linked)
  | false =>
    unfold Delete.doTryDelconn
    rw [if_pos linked]
    have stale := pending.stale
    refine .inr ⟨rfl, pending.running, ?_, pending.same⟩
    match r, stale with
    | some (.field _), _ => trivial
    | some (.cpcb k), stale => exact stale

theorem Pending.recycleLost (pending : Pending may r x w t) (wf : t.Wf) (other : y ≠ x)
    (own : t.Lost c y → may y) :
    Hit may (recycleLost r c t y) ∨ Pending may r x w (recycleLost r c t y) := by
  unfold Delete.recycleLost
  rw [if_neg (by simp [pending.running])]
  split
  · rename_i lost
    dsimp only
    rcases pending.doTryDelconn (y := y) with hit | ⟨-, later⟩
    · split
      · exact .inl hit
      · exact .inl (hit.mono (tcpDropConn_less y _))
    · rw [if_neg (by simp [later.running])]
      exact .inr (later.tcpDropConn ((doTryDelconn_less r y t).wf wf) (own lost) other)
  · exact .inr pending

theorem Pending.reaches (pending : Pending may r x w t) (lost : w.Lost c x)
    (linked : (w.conns x).linked = true) : Hit may (Delete.recycleLost r c t x) := by
  have still : t.Lost c x := by
    rw [World.Lost, pending.same]
    exact lost
  have hit : Hit may (Delete.doTryDelconn r x t) :=
    hit_of_linked pending.stale (pending.same ▸ linked)
  unfold Delete.recycleLost
  rw [if_neg (by simp [pending.running]), if_pos still]
  dsimp only
  split
  · exact hit
  · exact hit.mono (tcpDropConn_less x _)

/-- A stale header is used when there is a pcb to close. -/
theorem ssCloseConnNow_hit (wf : w.Wf) (running : w.halted = false)
    (stale : w.Stale (w.Allowed c) r) (target : w.Target c x)
    (linked : (w.conns x).linked = true) : Hit (w.Allowed c) (ssCloseConnNow r c w) := by
  have less := doTryDelconn_less r c w
  have touches {t : World} (hit : Hit (w.Allowed c) t) :
      Hit (w.Allowed c) (if t.halted then t else t.touch c) := by
    split
    · exact hit
    · obtain ⟨e, mem, other⟩ := hit
      exact ⟨e, List.mem_append_left _ mem, other⟩
  have start : Pending (w.Allowed c) r x w w := ⟨running, stale, rfl⟩
  unfold ssCloseConnNow
  dsimp only
  have loops {t : World} (later : Less (doTryDelconn r c w) t) :
      Less (doTryDelconn r c w) ((doTryDelconn r c w).group.foldl (recycleLost r c)
        (tcpFreeAcceptRing c t)) :=
    later.trans ((Less.foldl (fun w y => tcpDropConn_less y w) _ _).trans
      (Less.foldl (fun w y => recycleLost_less r c y w) _ _))
  rcases start.doTryDelconn (y := c) with hit | ⟨unlinked, pending⟩
  · split
    · exact hit
    · refine touches ?_
      split
      · exact hit.mono (loops (.refl _))
      · exact hit
  · rcases target with rfl | ⟨listens, mem, lost, outside⟩
    · exact absurd (linked.symm.trans unlinked) (by decide)
    have touched : doTryDelconn r c w = w.touch c := by
      unfold doTryDelconn
      rw [if_pos unlinked]
    rw [touched] at pending less ⊢
    rw [if_neg (by simp [pending.running])]
    refine touches ?_
    rw [if_pos (show ((w.touch c).conns c).listens = true from listens)]
    -- the ring does not have the connection, and the loop comes to it
    have dropped : Less w (tcpFreeAcceptRing c (w.touch c)) ∧
        Pending (w.Allowed c) r x w (tcpFreeAcceptRing c (w.touch c)) := by
      refine List.foldlRecOn (motive := fun t => Less w t ∧ Pending (w.Allowed c) r x w t) _ _
        ⟨less, pending⟩ fun t before y in_ring => ?_
      exact ⟨before.1.trans (tcpDropConn_less y t), before.2.tcpDropConn (before.1.wf wf)
        (.inr ⟨listens, .inl in_ring⟩) fun same => outside (same ▸ in_ring)⟩
    obtain ⟨front, back, split_⟩ := List.append_of_mem mem
    change Hit _ (w.group.foldl _ _)
    rw [split_, List.foldl_append, List.foldl_cons]
    have front_done : Less w (front.foldl (recycleLost r c) (tcpFreeAcceptRing c (w.touch c))) ∧
        (Hit (w.Allowed c) (front.foldl (recycleLost r c) (tcpFreeAcceptRing c (w.touch c))) ∨
          Pending (w.Allowed c) r x w
            (front.foldl (recycleLost r c) (tcpFreeAcceptRing c (w.touch c)))) := by
      refine List.foldlRecOn (motive := fun t => Less w t ∧
        (Hit (w.Allowed c) t ∨ Pending (w.Allowed c) r x w t)) _ _
        ⟨dropped.1, .inr dropped.2⟩ fun t before y in_front => ?_
      refine ⟨before.1.trans (recycleLost_less r c y t), ?_⟩
      rcases before.2 with hit | pending
      · exact .inl (hit.mono (recycleLost_less r c y t))
      by_cases same : y = x
      · exact .inl (same ▸ pending.reaches lost linked)
      · refine pending.recycleLost (before.1.wf wf) same fun lost => .inr ⟨listens, .inr ⟨?_, ?_⟩⟩
        · rw [split_]
          exact List.mem_append_left _ in_front
        · exact before.1.lost lost
    refine Hit.mono ?_ (Less.foldl (fun w y => recycleLost_less r c y w) _ _)
    rcases front_done.2 with hit | pending
    · exact hit.mono (recycleLost_less r c x _)
    · exact pending.reaches lost linked

end Steps

/-- For any earlier uses of the message, a delete message touches only its connection and what was
accepted from it and has no owner, exactly if `sbr_handle_close` has built it, or the header left in
it is not stale, or there is no pcb to close. -/
theorem delete_framed_iff (w : World) (wf : w.Wf) (start : w.touched = [] ∧ w.halted = false)
    (builder : Builder) (uses : List Use) (c : ConnId) :
    Framed (w.Allowed c) (ssCloseConnNow (header builder uses w c) c w) ↔
      builder = .handleClose ∨ ¬w.Stale (w.Allowed c) (leftover uses) ∨
        ∀ x, w.Target c x → (w.conns x).linked = false := by
  have own : ¬w.Stale (w.Allowed c) (header .handleClose uses w c) := by
    simp only [header, leftover, List.foldl_append, List.foldl_cons, List.foldl_nil]
    cases comm : (w.conns c).comm with
    | none => exact id
    | some k =>
      rintro ⟨-, d, conn, other⟩
      rw [wf c k comm] at conn
      exact other (.inl (Option.some.inj conn).symm)
  have left : header .handleRecycleConn uses w c = leftover uses := by
    simp [header, leftover, List.foldl_append]
  cases builder with
  | handleClose =>
    refine iff_of_true (ssCloseConnNow_framed wf start.1 fun x _ _ => own) (.inl rfl)
  | handleRecycleConn =>
    rw [left]
    constructor
    · intro framed
      by_contra not_
      obtain ⟨stale, x, target, linked⟩ : w.Stale (w.Allowed c) (leftover uses) ∧
          ∃ x, w.Target c x ∧ (w.conns x).linked = true := by
        simpa using not_
      obtain ⟨e, mem, other⟩ := ssCloseConnNow_hit wf start.2 stale target linked
      obtain ⟨d, is, allowed⟩ := framed e mem
      exact other d is allowed
    · rintro (other | fresh | unlinked)
      · cases other
      · exact ssCloseConnNow_framed wf start.1 fun _ _ _ => fresh
      · refine ssCloseConnNow_framed wf start.1 fun x target linked => ?_
        exact absurd ((unlinked x target).symm.trans linked) (by decide)

/-- Connections 0 and 1 with their control blocks. -/
def two : World where
  conns := fun c => ⟨true, some c, none, true, false⟩
  cpcbs := fun k => ⟨some k, false⟩
  group := [0, 1]
  ring := fun _ => []
  touched := []
  halted := false

/-- A message that was used for the same connection before. -/
theorem recycled_framed : Framed (two.Allowed 0)
    (ssCloseConnNow (header .handleRecycleConn [.construct (some 0)] two 0) 0 two) :=
  (delete_framed_iff two (by rintro x k ⟨⟩; rfl) ⟨rfl, rfl⟩ .handleRecycleConn
    [.construct (some 0)] 0).mpr (.inr (.inl (by
      rintro ⟨-, d, conn, other⟩
      exact other (.inl (Option.some.inj conn).symm))))

/-- A message that was used for connection 1 before and is built to recycle connection 0 closes
connection 1. -/
theorem recycled_closes_other :
    (ssCloseConnNow (header .handleRecycleConn [.construct (some 1)] two 0) 0 two).touched =
        [some 1, some 0] ∧
      ¬Framed (two.Allowed 0)
        (ssCloseConnNow (header .handleRecycleConn [.construct (some 1)] two 0) 0 two) := by
  have touched : (ssCloseConnNow (header .handleRecycleConn [.construct (some 1)] two 0) 0
      two).touched = [some 1, some 0] := by
    decide +kernel
  refine ⟨touched, fun framed => ?_⟩
  obtain ⟨d, is, allowed⟩ := framed (some 1) (by simp [touched])
  obtain rfl : 1 = d := Option.some.inj is
  simp [World.Allowed, two] at allowed

end Dmm.Netconn.Delete
