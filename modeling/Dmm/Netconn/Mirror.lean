import Dmm.Lib.Run
import Mathlib

/-!
# The mirror of the TCP states

`do_update_pcbstate` walks lwIP's lists of pcbs and writes the state of each into the connection
that the pcb has as its callback argument. Closing takes the pcb off the connection, but leaves
the connection as the argument of the pcb, which lwIP keeps until the close is complete.

lwIP is given by what it does with pcbs; `used` are those that are allocated, and `lists` those in
its lists, in the order in which they are walked.
-/

namespace Dmm.Netconn.Mirror

/-! ## Connections and pcbs -/

/-- A `spl_netconn`, by the place it is stored at. -/
abbrev ConnId := Nat

/-- A `tcp_pcb`, by the place it is stored at. -/
abbrev PcbId := Nat

/-- `tcp_state` and `spl_tcp_state_t`, which `update_tcp_state` maps to each other. -/
inductive TcpState
  | closed
  | listen
  | synSent
  | synRcvd
  | established
  | finWait1
  | finWait2
  | closeWait
  | closing
  | lastAck
  | timeWait
  deriving DecidableEq, Repr

/-- The parts of a `spl_netconn` that are used; `live` says that it is not in its pool. -/
structure Conn where
  live : Bool
  privateData : Option PcbId
  tcpState : TcpState
  deriving DecidableEq, Repr

/-- A `tcp_pcb` with its `callback_arg`. -/
structure Pcb where
  arg : Option ConnId
  state : TcpState
  deriving DecidableEq, Repr

/-- The stack; `fresh` says that `do_update_pcbstate` was the last to run. -/
structure State where
  conns : ConnId → Conn
  pcbs : PcbId → Pcb
  used : List PcbId
  lists : List PcbId
  fresh : Bool

/-- `update_tcp_state` -/
def updateTcpState (conns : ConnId → Conn) (c : ConnId) (state : TcpState) : ConnId → Conn :=
  Function.update conns c { conns c with tcpState := state }

/-- `do_update_pcbstate` -/
def doUpdatePcbstate (pcbs : PcbId → Pcb) : List PcbId → (ConnId → Conn) → ConnId → Conn
  | [], conns => conns
  | p :: lists, conns =>
    match (pcbs p).arg with
    | none => doUpdatePcbstate pcbs lists conns
    | some c => doUpdatePcbstate pcbs lists (updateTcpState conns c (pcbs p).state)

/-- The connection of a pcb has it. -/
def State.linked (s : State) (p : PcbId) : Bool :=
  (s.pcbs p).arg.any fun c => (s.conns c).privateData = some p

/-- A connection without a pcb: `unlink_pcb`. -/
def unlinked (conn : Conn) : Conn := { conn with privateData := none, tcpState := .closed }

/-- A pcb is freed. -/
def State.freePcb (s : State) (p : PcbId) : State :=
  { s with used := s.used.filter (· ≠ p), lists := s.lists.filter (· ≠ p) }

@[grind =] theorem State.mem_freePcb_lists {s : State} {p q : PcbId} :
    q ∈ (s.freePcb p).lists ↔ q ∈ s.lists ∧ q ≠ p := by
  simp [freePcb]

@[grind =] theorem State.mem_freePcb_used {s : State} {p q : PcbId} :
    q ∈ (s.freePcb p).used ↔ q ∈ s.used ∧ q ≠ p := by
  simp [freePcb]

@[grind =] theorem State.freePcb_conns (s : State) (p : PcbId) :
    (s.freePcb p).conns = s.conns := rfl

@[grind =] theorem State.freePcb_pcbs (s : State) (p : PcbId) : (s.freePcb p).pcbs = s.pcbs := rfl

/-- What happens. -/
inductive Action
  /-- `spl_pcb_new` for a connection from the pool. -/
  | create (c : ConnId) (p : PcbId)
  /-- lwIP puts the pcb of a connection into one of its lists. -/
  | register (p : PcbId)
  /-- lwIP changes the state of a pcb. -/
  | advance (p : PcbId) (state : TcpState)
  /-- lwIP makes a pcb for a connection request, with the argument of the listening pcb or none. -/
  | syn (p : PcbId) (arg : Option ConnId)
  /-- `spl_accept_function` with a connection from the pool. -/
  | accept (p : PcbId) (c : ConnId)
  /-- `tcp_drop_conn` -/
  | drop (c : ConnId)
  /-- `do_close_internal`, after which lwIP keeps the pcb in a state, or has freed it. -/
  | close (c : ConnId) (kept : Option TcpState)
  /-- `spl_err_tcp` for a pcb that lwIP frees. -/
  | reset (p : PcbId)
  /-- lwIP frees a pcb that is closed. -/
  | expire (p : PcbId)
  /-- `free_conn_by_spl` for a connection without a pcb. -/
  | free (c : ConnId)
  /-- `do_update_pcbstate` -/
  | update

/-- A connection and a pcb are tied to each other: `private_data` and `tcp_arg`. -/
def State.tie (s : State) (c : ConnId) (p : PcbId) (state : TcpState) : State :=
  { s with
    conns := Function.update s.conns c ⟨true, some p, state⟩
    pcbs := Function.update s.pcbs p ⟨some c, state⟩ }

/-- One step. -/
def step (s : State) : Action → Option State
  | .create c p =>
    if (s.conns c).live = false ∧ p ∉ s.used then
      some { s.tie c p .closed with used := p :: s.used }
    else none
  | .register p =>
    if s.linked p ∧ p ∉ s.lists then some { s with lists := p :: s.lists } else none
  | .advance p state =>
    if p ∈ s.lists then
      some { s with pcbs := Function.update s.pcbs p { s.pcbs p with state := state } }
    else none
  | .syn p arg =>
    if p ∉ s.used ∧ arg.all (fun l => (s.conns l).live ∧ (s.conns l).privateData.isSome) then
      some { s with
        pcbs := Function.update s.pcbs p ⟨arg, .synRcvd⟩
        used := p :: s.used
        lists := p :: s.lists }
    else none
  | .accept p c =>
    if p ∈ s.lists ∧ s.linked p = false ∧ (s.conns c).live = false then
      some (s.tie c p .established)
    else none
  | .drop c =>
    match (s.conns c).privateData with
    | none => none
    | some p =>
      some ({ s with conns := Function.update s.conns c ⟨false, none, .closed⟩ }.freePcb p)
  | .close c kept =>
    match (s.conns c).privateData with
    | none => none
    | some p =>
      let s := { s with conns := Function.update s.conns c (unlinked (s.conns c)) }
      match kept with
      | none => some (s.freePcb p)
      | some state => some { s with pcbs := Function.update s.pcbs p ⟨some c, state⟩ }
  | .reset p =>
    if p ∈ s.lists ∨ s.linked p then
      match (s.pcbs p).arg with
      | none => some (s.freePcb p)
      | some c =>
        some ({ s with conns := Function.update s.conns c (unlinked (s.conns c)) }.freePcb p)
    else none
  | .expire p => if s.linked p then none else some (s.freePcb p)
  | .free c =>
    if (s.conns c).live = true ∧ (s.conns c).privateData = none then
      some { s with conns := Function.update s.conns c ⟨false, none, .closed⟩ }
    else none
  | .update => some { s with conns := doUpdatePcbstate s.pcbs s.lists s.conns }

/-- A step, with a record of the last one. -/
def act (s : State) (a : Action) : Option State :=
  (step s a).map fun t => { t with fresh := a matches .update }

/-- Nothing is allocated. -/
def start : State := ⟨fun _ => ⟨false, none, .closed⟩, fun _ => ⟨none, .closed⟩, [], [], false⟩

/-! ## The mirror is exact -/

/-- The argument of every pcb in the lists is a connection that is not freed and has no other
pcb. -/
def State.Owned (s : State) : Prop :=
  ∀ p ∈ s.lists, ∀ c, (s.pcbs p).arg = some c →
    (s.conns c).live = true ∧ ∀ q, (s.conns c).privateData = some q → q = p

/-- Pcbs have the right arguments, and after `do_update_pcbstate` each connection has the state of
its pcb. -/
structure Exact (s : State) : Prop where
  owned : s.Owned
  mirrored : s.fresh = true → ∀ c p, (s.conns c).live = true → (s.conns c).privateData = some p →
    (s.conns c).tcpState = (s.pcbs p).state

/-- A connection is freed after its pcb, and lwIP gives no argument to a new pcb. -/
def Meets (s : State) : Action → Prop
  | .free c => ∀ p ∈ s.lists, (s.pcbs p).arg ≠ some c
  | .syn _ arg => arg = none
  | _ => True

/-- The invariant. -/
structure Inv (s : State) : Prop where
  owned : s.Owned
  linked : ∀ c p, (s.conns c).privateData = some p → (s.conns c).live = true ∧ p ∈ s.used ∧
    (s.pcbs p).arg = some c ∧
    (p ∉ s.lists → (s.conns c).tcpState = .closed ∧ (s.pcbs p).state = .closed)
  allocated : ∀ p ∈ s.lists, p ∈ s.used

theorem doUpdatePcbstate_rest (pcbs : PcbId → Pcb) (lists : List PcbId) (conns : ConnId → Conn)
    (c : ConnId) : (doUpdatePcbstate pcbs lists conns c).live = (conns c).live ∧
      (doUpdatePcbstate pcbs lists conns c).privateData = (conns c).privateData := by
  induction lists generalizing conns with
  | nil => exact ⟨rfl, rfl⟩
  | cons p lists continued =>
    rw [doUpdatePcbstate]
    cases (pcbs p).arg with
    | none => exact continued conns
    | some c' =>
      have rest := continued (updateTcpState conns c' (pcbs p).state)
      rw [updateTcpState, Function.update_apply] at rest
      split at rest
      · rename_i same
        exact same ▸ rest
      · exact rest

/-- For a connection that is the argument of one pcb only, the walk writes the state of that pcb. -/
theorem doUpdatePcbstate_only {pcbs : PcbId → Pcb} {lists : List PcbId} {c : ConnId} {p : PcbId}
    (only : ∀ q ∈ lists, (pcbs q).arg = some c → q = p) (arg : (pcbs p).arg = some c)
    (conns : ConnId → Conn) :
    (doUpdatePcbstate pcbs lists conns c).tcpState =
      if p ∈ lists then (pcbs p).state else (conns c).tcpState := by
  induction lists generalizing conns with
  | nil => rfl
  | cons q lists continued =>
    have later := continued fun r mem => only r (List.mem_cons_of_mem _ mem)
    rw [doUpdatePcbstate]
    by_cases same : q = p
    · subst same
      simp [arg, later, updateTcpState]
    · have other : (pcbs q).arg ≠ some c := fun is => same (only q List.mem_cons_self is)
      simp only [List.mem_cons, or_iff_right (Ne.symm same)]
      cases is : (pcbs q).arg with
      | none => exact later conns
      | some c' =>
        have different : c ≠ c' := fun equal => other (equal ▸ is)
        have rest := later (updateTcpState conns c' (pcbs q).state)
        rwa [updateTcpState, Function.update_of_ne different] at rest

theorem Inv.linked_iff {s : State} (inv : Inv s) {p : PcbId} :
    s.linked p = true ↔ ∃ c, (s.conns c).privateData = some p := by
  rw [State.linked, Option.any_eq_true]
  constructor
  · rintro ⟨c, -, has⟩
    exact ⟨c, of_decide_eq_true has⟩
  · rintro ⟨c, has⟩
    exact ⟨c, (inv.linked c p has).2.2.1, decide_eq_true has⟩

theorem Inv.updated {s : State} (inv : Inv s) {c : ConnId} {p : PcbId}
    (has : (s.conns c).privateData = some p) :
    (doUpdatePcbstate s.pcbs s.lists s.conns c).tcpState =
      if p ∈ s.lists then (s.pcbs p).state else (s.conns c).tcpState :=
  doUpdatePcbstate_only (fun q listed arg => ((inv.owned q listed c arg).2 p has).symm)
    (inv.linked c p has).2.2.1 s.conns

/-- A pcb is freed and taken off the connection that is its argument. -/
theorem Inv.release {s : State} (inv : Inv s) {c : ConnId} {p : PcbId} {conn : Conn}
    (only : ∀ q, (s.conns c).privateData = some q → q = p) (off : conn.privateData = none)
    (keeps : conn.live = (s.conns c).live ∨ (s.conns c).privateData = some p)
    (arg : (s.pcbs p).arg = some c) :
    Inv ({ s with conns := Function.update s.conns c conn }.freePcb p) where
  owned := by
    intro q listed c' has
    obtain ⟨listed, other⟩ := State.mem_freePcb_lists.mp listed
    obtain ⟨live, alone⟩ := inv.owned q listed c' has
    simp only [State.freePcb_conns, Function.update_apply]
    split
    · rename_i same
      subst same
      rcases keeps with keeps | had
      · exact ⟨keeps.trans live, by simp [off]⟩
      · exact absurd (alone p had).symm other
    · exact ⟨live, alone⟩
  linked := by
    intro c' q has
    simp only [State.freePcb_conns, Function.update_apply] at has ⊢
    split at has
    · cases off.symm.trans has
    · rename_i different
      obtain ⟨live, used, tied, outside⟩ := inv.linked c' q has
      have other : q ≠ p := by
        intro same
        rw [same, arg] at tied
        exact different (Option.some.inj tied).symm
      rw [if_neg different]
      exact ⟨live, State.mem_freePcb_used.mpr ⟨used, other⟩, tied,
        fun unlisted => outside fun listed =>
          unlisted (State.mem_freePcb_lists.mpr ⟨listed, other⟩)⟩
  allocated := by
    intro q listed
    obtain ⟨listed, other⟩ := State.mem_freePcb_lists.mp listed
    exact State.mem_freePcb_used.mpr ⟨inv.allocated q listed, other⟩

theorem Inv.freePcb {s : State} (inv : Inv s) {p : PcbId}
    (alone : ∀ c, (s.conns c).privateData ≠ some p) : Inv (s.freePcb p) where
  owned := fun q listed => inv.owned q (State.mem_freePcb_lists.mp listed).1
  linked := by
    intro c q has
    have other : q ≠ p := fun same => alone c (same ▸ has)
    obtain ⟨live, used, tied, outside⟩ := inv.linked c q has
    exact ⟨live, State.mem_freePcb_used.mpr ⟨used, other⟩, tied,
      fun unlisted => outside fun listed => unlisted (State.mem_freePcb_lists.mpr ⟨listed, other⟩)⟩
  allocated := by
    intro q listed
    obtain ⟨listed, other⟩ := State.mem_freePcb_lists.mp listed
    exact State.mem_freePcb_used.mpr ⟨inv.allocated q listed, other⟩

/-- Every step that meets the condition keeps the invariant. -/
theorem Inv.step {s t : State} {a : Action} (inv : Inv s) (meets : Meets s a)
    (taken : Mirror.step s a = some t) : Inv t := by
  have tied (p : PcbId) := inv.linked_iff (p := p)
  have owned := inv.owned
  have linked := inv.linked
  have allocated := inv.allocated
  unfold State.Owned at owned
  cases a with
  | create c p =>
    simp only [Mirror.step, State.tie, Option.ite_none_right_eq_some, Option.some.injEq] at taken
    obtain ⟨⟨dead, unused⟩, rfl⟩ := taken
    refine ⟨?_, ?_, ?_⟩ <;> grind [State.Owned, Function.update_apply]
  | register p =>
    obtain ⟨⟨has, unlisted⟩, rfl⟩ := of_guarded taken
    obtain ⟨c, has⟩ := (tied p).mp has
    refine ⟨?_, ?_, ?_⟩ <;> grind [State.Owned]
  | advance p state =>
    obtain ⟨listed, rfl⟩ := of_guarded taken
    refine ⟨?_, ?_, ?_⟩ <;> grind [State.Owned, Function.update_apply]
  | syn p arg =>
    obtain ⟨⟨unused, -⟩, rfl⟩ := of_guarded taken
    obtain rfl : arg = none := meets
    refine ⟨?_, ?_, ?_⟩ <;> grind [State.Owned, Function.update_apply]
  | accept p c =>
    simp only [Mirror.step, State.tie, Option.ite_none_right_eq_some, Option.some.injEq] at taken
    obtain ⟨⟨listed, alone, dead⟩, rfl⟩ := taken
    refine ⟨?_, ?_, ?_⟩ <;> grind [State.Owned, Function.update_apply]
  | drop c =>
    simp only [Mirror.step] at taken
    split at taken
    · cases taken
    · rename_i p has
      obtain rfl := Option.some.inj taken
      exact inv.release (fun q also => Option.some.inj (also.symm.trans has)) rfl (.inr has)
        (linked c p has).2.2.1
  | close c kept =>
    simp only [Mirror.step] at taken
    split at taken
    · cases taken
    · rename_i p has
      cases kept with
      | none =>
        obtain rfl := Option.some.inj taken
        exact inv.release (fun q also => Option.some.inj (also.symm.trans has)) rfl (.inl rfl)
          (linked c p has).2.2.1
      | some state =>
        obtain rfl := Option.some.inj taken
        refine ⟨?_, ?_, ?_⟩ <;> grind [State.Owned, Function.update_apply, unlinked]
  | reset p =>
    simp only [Mirror.step, Option.ite_none_right_eq_some] at taken
    obtain ⟨has, taken⟩ := taken
    split at taken
    · rename_i none_
      obtain rfl := Option.some.inj taken
      exact inv.freePcb fun c has => absurd (none_.symm.trans (linked c p has).2.2.1)
        (by simp)
    · rename_i c arg
      obtain rfl := Option.some.inj taken
      refine inv.release ?_ rfl (.inl rfl) arg
      intro q also
      rcases has with listed | has
      · exact (owned p listed c arg).2 q also
      · obtain ⟨c', has⟩ := (tied p).mp has
        grind
  | expire p =>
    simp only [Mirror.step, Option.ite_none_left_eq_some, Option.some.injEq] at taken
    obtain ⟨alone, rfl⟩ := taken
    exact inv.freePcb fun c has => alone ((tied p).mpr ⟨c, has⟩)
  | free c =>
    obtain ⟨⟨live, alone⟩, rfl⟩ := of_guarded taken
    have gone : ∀ p ∈ s.lists, (s.pcbs p).arg ≠ some c := meets
    refine ⟨?_, ?_, ?_⟩ <;> grind [State.Owned, Function.update_apply]
  | update =>
    obtain rfl := Option.some.inj taken
    refine ⟨?_, ?_, allocated⟩
    · intro p listed c arg
      simp only [doUpdatePcbstate_rest]
      exact owned p listed c arg
    · intro c p has
      simp only [doUpdatePcbstate_rest] at has ⊢
      obtain ⟨live, used, arg, outside⟩ := linked c p has
      refine ⟨live, used, arg, fun unlisted => ?_⟩
      rw [inv.updated has, if_neg unlisted]
      exact outside unlisted

/-- From a state with the invariant each step that meets the condition leads to an exact one. -/
theorem Inv.exact {s t : State} {a : Action} (inv : Inv s) (meets : Meets s a)
    (taken : act s a = some t) : Inv t ∧ Exact t := by
  obtain ⟨u, stepped, rfl⟩ := Option.map_eq_some_iff.mp taken
  have after := inv.step meets stepped
  refine ⟨⟨after.owned, after.linked, after.allocated⟩, after.owned, ?_⟩
  intro fresh c p live has
  cases a with
  | update =>
    obtain rfl := Option.some.inj stepped
    simp only [doUpdatePcbstate_rest] at has
    change (doUpdatePcbstate s.pcbs s.lists s.conns c).tcpState = (s.pcbs p).state
    rw [inv.updated has]
    split
    · rfl
    · rename_i unlisted
      obtain ⟨-, -, -, outside⟩ := inv.linked c p has
      rw [(outside unlisted).1, (outside unlisted).2]
  | _ => cases fresh

/-- A step that does not meet the condition leaves a pcb with a wrong argument. -/
theorem Inv.wrong {s t : State} {a : Action} (inv : Inv s) (fails : ¬Meets s a)
    (taken : act s a = some t) : ¬Exact t := by
  obtain ⟨u, stepped, rfl⟩ := Option.map_eq_some_iff.mp taken
  intro exact_
  cases a with
  | free c =>
    obtain ⟨-, rfl⟩ := of_guarded stepped
    simp only [Meets, not_forall, not_not] at fails
    obtain ⟨p, listed, arg⟩ := fails
    simpa using (exact_.owned p listed c arg).1
  | syn p arg =>
    obtain ⟨⟨unused, listens⟩, rfl⟩ := of_guarded stepped
    obtain ⟨l, rfl⟩ := Option.ne_none_iff_exists'.mp fails
    obtain ⟨live, q, has⟩ : (s.conns l).live = true ∧ ∃ q, (s.conns l).privateData = some q := by
      simpa [Option.isSome_iff_exists] using listens
    have same := (exact_.owned p List.mem_cons_self l (by simp)).2 q has
    exact unused (same ▸ (inv.linked l q has).2.1)
  | _ => exact fails trivial

/-- Runs that meet the condition keep the invariant and are exact. -/
theorem runs_exact {s : State} (run : Runs act Meets start s) : Inv s ∧ Exact s := by
  refine run.invariant (P := fun s => Inv s ∧ Exact s) ?_
    fun _ _ _ before meets taken => before.1.exact meets taken
  exact ⟨⟨nofun, nofun, nofun⟩, nofun, nofun⟩

/-- In every run in which a connection is freed after its pcb, the mirror is exact, and with one
step more exactly if that step meets the condition too. -/
theorem mirror_exact_iff (s : State) :
    (Runs act Meets start s → Exact s) ∧
      ∀ a t, Runs act Meets start s → act s a = some t → (Exact t ↔ Meets s a) := by
  refine ⟨fun run => (runs_exact run).2, fun a t run taken => ⟨?_, ?_⟩⟩
  · intro exact_
    by_contra fails
    exact (runs_exact run).1.wrong fails taken exact_
  · exact fun meets => ((runs_exact run).1.exact meets taken).2

/-- A connection is closed and freed, and its pcb waits; the next connection in its place gets the
state of that pcb. -/
theorem mirror_stale :
    ∃ s, Runs act (fun _ _ => True) start s ∧ s.fresh = true ∧
      (s.conns 0).privateData = some 8 ∧ (s.pcbs 8).state = .established ∧
      (s.conns 0).tcpState = .timeWait := by
  have executed : ∃ s, Runs act (fun _ _ => True) start s ∧
      decide (s.fresh = true ∧ (s.conns 0).privateData = some 8 ∧
        (s.pcbs 8).state = .established ∧ (s.conns 0).tcpState = .timeWait) = true :=
    exists_runs_of_execute (fun _ _ => true)
      [.create 0 7, .register 7, .advance 7 .established, .close 0 (some .finWait1),
        .advance 7 .timeWait, .free 0, .create 0 8, .register 8, .advance 8 .established, .update]
      (fun _ _ _ => trivial) (by decide +kernel)
  simpa only [decide_eq_true_eq] using executed

end Dmm.Netconn.Mirror
