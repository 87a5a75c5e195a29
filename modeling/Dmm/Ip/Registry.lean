import Dmm.Ip.Container
import Dmm.Lib.Run
import Mathlib

/-!
# The registry of container addresses

The tree is to map every registered address to the one port that lists it.
-/

namespace Dmm.Ip

/-! ## Runs -/

/-- A request about a container. -/
inductive ContainerRequest
  | add (c : Container)
  | del (id name : String)

/-- A port lists an address. -/
def Lists (containers : List Container) (key : Key) (ip : Addr) : Prop :=
  ∃ c ∈ containers, c.id = key.1 ∧ ∃ p ∈ c.ports, p.name = key.2 ∧ ip ∈ p.ips

/-- The tree maps exactly the registered addresses, each to the only port that lists it, and the
ports of a container have different names. -/
structure Consistent (s : State) : Prop where
  tree : ∀ ip key, s.tree ip = some key ↔ Lists s.containers key ip
  names : ∀ c ∈ s.containers, (c.ports.map Port.name).Nodup

section
variable (wide : Addr) (netifs : List String)

/-- A request is handled. -/
def handleContainer (s : State) : ContainerRequest → Option Err × State
  | .add c => addContainer wide netifs s c
  | .del id name => delPort wide netifs s id name

/-- One request. -/
def act (s : State) (r : ContainerRequest) : Option State :=
  some (handleContainer wide netifs s r).2

/-- No container is registered. -/
def start (networks : List Network) (addr : String → Addr) : State :=
  ⟨networks, [], fun _ => none, addr⟩

/-- What a request should do: it keeps the registry consistent, a refused one changes nothing, and a
deletion leaves an interface its address unless the deleted port lists it. -/
def Right (s : State) (r : ContainerRequest) : Prop :=
  Consistent (handleContainer wide netifs s r).2 ∧
    ((handleContainer wide netifs s r).1 ≠ none → (handleContainer wide netifs s r).2 = s) ∧
    ∀ id name, r = .del id name → ∀ nic, ¬Lists s.containers (id, name) (s.addr nic) →
      (handleContainer wide netifs s r).2.addr nic = s.addr nic

/-- The addresses of new ports are not registered, and no two of the ports list one. -/
def Fresh (s : State) (ports : List Port) : Prop :=
  (∀ p ∈ ports, ∀ ip ∈ p.ips, s.tree ip = none) ∧
    ∀ p ∈ ports, ∀ q ∈ ports, ∀ ip ∈ p.ips, ip ∈ q.ips → p.name = q.name

/-- The ports that a request adds are fresh; a port is deleted while the interfaces of the networks
of its addresses have no address or one of the port. -/
def Allowed (s : State) : ContainerRequest → Prop
  | .add c => ∀ ports, validateAddcontainerconfig wide netifs s c = .ok ports →
      checkIpCount wide s ports = true → Fresh s ports
  | .del id name => ∀ ip, Lists s.containers (id, name) ip → ∀ n ∈ s.network wide ip,
      n.nic ∈ netifs → s.addr n.nic = 0 ∨ Lists s.containers (id, name) (s.addr n.nic)

end

/-- The registry is consistent and the containers have different ids. -/
structure Inv (s : State) : Prop extends Consistent s where
  ids : (s.containers.map Container.id).Nodup

variable {wide : Addr} {netifs : List String} {s : State}

/-! ## Additions -/

/-- What adding addresses for ports does to the tree. -/
structure Grown (pairs : List (Key × Addr)) (s t : State) : Prop where
  containers : t.containers = s.containers
  kept : ∀ ip key, s.tree ip = some key → t.tree ip = some key
  added : ∀ ip key, s.tree ip = none → t.tree ip = some key → (key, ip) ∈ pairs
  present : ∀ x ∈ pairs, t.tree x.2 ≠ none

theorem grown_foldl (pairs : List (Key × Addr)) (s : State) :
    Grown pairs s (pairs.foldl (fun s x => addIp wide netifs x.1 s x.2) s) := by
  induction pairs generalizing s with
  | nil => exact ⟨rfl, fun _ _ is => is, fun _ _ none_ some_ => by simp [none_] at some_, nofun⟩
  | cons x pairs ih =>
    obtain ⟨containers, kept, added, present⟩ := ih (addIp wide netifs x.1 s x.2)
    rw [List.foldl_cons]
    generalize pairs.foldl _ _ = t at *
    simp only [addIp] at containers kept added
    refine ⟨containers, fun ip key is => ?_, fun ip key none_ is => ?_, fun y listed => ?_⟩
    · grind [Function.update_apply]
    · grind [Function.update_apply]
    · rcases List.mem_cons.mp listed with rfl | listed
      · cases is : s.tree y.2 with
        | none => grind [Function.update_apply]
        | some key => grind [Function.update_apply]
      · exact present y listed

/-- The addresses of ports with the keys of the ports. -/
def pairsOf (id : String) (ports : List Port) : List (Key × Addr) :=
  ports.flatMap fun p => p.ips.map ((id, p.name), ·)

theorem foldl_pairsOf (id : String) (ports : List Port) (s : State) :
    ports.foldl (fun s p => p.ips.foldl (addIp wide netifs (id, p.name)) s) s =
      (pairsOf id ports).foldl (fun s x => addIp wide netifs x.1 s x.2) s := by
  simp only [pairsOf, List.foldl_flatMap, List.foldl_map]

/-- The ports that are used are some of the request. -/
theorem usedPorts_sublist {ports used : List Port}
    (valid : usedPorts wide netifs s ports = .ok used) :
    used.Sublist ports := by
  induction ports generalizing used with
  | nil =>
    obtain rfl := Except.ok.inj valid
    exact List.Sublist.refl _
  | cons p ports ih =>
    unfold usedPorts at valid
    cases first : usesPort wide netifs s p.name p.ips with
    | error e => simp [first, bind, Except.bind] at valid
    | ok uses =>
      cases later : usedPorts wide netifs s ports with
      | error e => simp [first, later, bind, Except.bind] at valid
      | ok rest =>
        simp only [first, later, bind, Except.bind, pure, Except.pure, Except.ok.injEq] at valid
        obtain rfl := valid
        split_ifs
        · exact (ih later).cons_cons p
        · exact (ih later).cons p

/-- The ports left of a valid request have different names, which are new in the container. -/
theorem validate_ok {c : Container} {ports : List Port}
    (valid : validateAddcontainerconfig wide netifs s c = .ok ports) :
    (ports.map Port.name).Nodup ∧ ∀ p ∈ ports, s.hasPort c.id p.name = false := by
  unfold validateAddcontainerconfig at valid
  split_ifs at valid with exists_ distinct
  have sublist := usedPorts_sublist valid
  refine ⟨distinct.sublist (sublist.map _), fun p listed => ?_⟩
  by_contra there
  exact exists_ (List.any_eq_true.mpr ⟨p, sublist.subset listed, by simpa using there⟩)

theorem not_lists_of_hasPort {id name : String} (absent : s.hasPort id name = false) (ip : Addr) :
    ¬Lists s.containers (id, name) ip := by
  rintro ⟨c, listed, rfl, p, among, rfl, -⟩
  simp only [State.hasPort, List.any_eq_false, Bool.and_eq_true, beq_iff_eq, not_and,
    Bool.not_eq_true] at absent
  exact absent c listed rfl p among rfl

/-- Where the ids are different, only one container has an id. -/
theorem changeFirst_eq_map {id : String} {change : List Port → List Port}
    {containers : List Container} (ids : (containers.map Container.id).Nodup) :
    changeFirst id change containers =
      containers.map fun d => if d.id = id then { d with ports := change d.ports } else d := by
  induction containers with
  | nil => rfl
  | cons d rest ih =>
    obtain ⟨absent, later⟩ := List.nodup_cons.mp ids
    rw [changeFirst, List.map_cons]
    split_ifs with same
    · have others :
          rest.map (fun e => if e.id = id then { e with ports := change e.ports } else e) =
          rest.map fun e => e := by
        refine List.map_congr_left fun e among => if_neg fun is => absent ?_
        exact List.mem_map.mpr ⟨e, among, is.trans same.symm⟩
      rw [others, List.map_id']
    · rw [ih later]

theorem lists_putPorts {c : Container} {ports : List Port} {containers : List Container} {key : Key}
    {ip : Addr} (ids : (containers.map Container.id).Nodup) :
    Lists (putPorts c ports containers) key ip ↔
      (key, ip) ∈ pairsOf c.id ports ∨ Lists containers key ip := by
  have pairs : (key, ip) ∈ pairsOf c.id ports ↔
      c.id = key.1 ∧ ∃ p ∈ ports, p.name = key.2 ∧ ip ∈ p.ips := by
    obtain ⟨id, name⟩ := key
    simp only [pairsOf, List.mem_flatMap, List.mem_map, Prod.mk.injEq]
    grind
  rw [pairs]
  unfold putPorts Lists
  rw [changeFirst_eq_map ids]
  split_ifs with there
  · obtain ⟨d, among, same⟩ := List.any_eq_true.mp there
    rw [beq_iff_eq] at same
    simp only [List.mem_map]
    grind
  · simp only [List.mem_cons]
    grind

/-- The ids and names with new ports. -/
theorem Inv.putPorts {c : Container} {ports : List Port} (inv : Inv s)
    (names : (ports.map Port.name).Nodup) (new : ∀ p ∈ ports, s.hasPort c.id p.name = false) :
    ((Ip.putPorts c ports s.containers).map Container.id).Nodup ∧
      ∀ d ∈ Ip.putPorts c ports s.containers, (d.ports.map Port.name).Nodup := by
  unfold Ip.putPorts
  rw [changeFirst_eq_map inv.ids]
  split_ifs with there
  · refine ⟨?_, fun d listed => ?_⟩
    · rw [List.map_map]
      convert inv.ids using 2
      funext d
      simp only [Function.comp]
      split_ifs <;> rfl
    · obtain ⟨e, among, rfl⟩ := List.mem_map.mp listed
      split_ifs with same
      · rw [List.map_append, List.nodup_append]
        refine ⟨names, inv.names e among, fun a left b right equal => ?_⟩
        obtain ⟨p, new_, rfl⟩ := List.mem_map.mp left
        obtain ⟨q, old, rfl⟩ := List.mem_map.mp right
        have absent := new p new_
        simp only [State.hasPort, List.any_eq_false, Bool.and_eq_true, beq_iff_eq, not_and,
          Bool.not_eq_true] at absent
        exact absent e among same q old equal.symm
      · exact inv.names e among
  · refine ⟨?_, fun d listed => ?_⟩
    · rw [List.map_cons, List.nodup_cons]
      refine ⟨fun listed => ?_, inv.ids⟩
      obtain ⟨d, among, same⟩ := List.mem_map.mp listed
      exact there (List.any_eq_true.mpr ⟨d, among, beq_iff_eq.mpr same⟩)
    · rcases List.mem_cons.mp listed with rfl | among
      · exact names
      · exact inv.names d among

/-- With new ports the tree is exact exactly if they are fresh. -/
theorem tree_iff_fresh {c : Container} {ports : List Port} {t : State} (inv : Inv s)
    (new : ∀ p ∈ ports, s.hasPort c.id p.name = false)
    (grown : Grown (pairsOf c.id ports) { s with containers := putPorts c ports s.containers } t) :
    (∀ ip key, t.tree ip = some key ↔ Lists t.containers key ip) ↔ Fresh s ports := by
  obtain ⟨containers, kept, added, present⟩ := grown
  have pair {p : Port} {ip : Addr} (among : p ∈ ports) (listed : ip ∈ p.ips) :
      ((c.id, p.name), ip) ∈ pairsOf c.id ports :=
    List.mem_flatMap.mpr ⟨p, among, List.mem_map.mpr ⟨ip, listed, rfl⟩⟩
  rw [containers]
  simp only [lists_putPorts inv.ids]
  constructor
  · intro exact_
    refine ⟨fun p among ip listed => ?_, fun p first q second ip left right => ?_⟩
    · by_contra there
      obtain ⟨key, is⟩ := Option.ne_none_iff_exists'.mp there
      have new_ := (exact_ ip (c.id, p.name)).mpr (.inl (pair among listed))
      obtain rfl := Option.some.inj ((kept ip key is).symm.trans new_)
      exact not_lists_of_hasPort (new p among) ip ((inv.tree ip _).mp is)
    · have one := (exact_ ip (c.id, p.name)).mpr (.inl (pair first left))
      have two := (exact_ ip (c.id, q.name)).mpr (.inl (pair second right))
      exact congrArg Prod.snd (Option.some.inj (one.symm.trans two))
  · rintro ⟨unregistered, apart⟩ ip key
    constructor
    · intro is
      cases before : s.tree ip with
      | none => exact .inl (added ip key before is)
      | some old =>
        obtain rfl := Option.some.inj ((kept ip old before).symm.trans is)
        exact .inr ((inv.tree ip old).mp before)
    · rintro (listed | listed)
      · obtain ⟨p, among, there⟩ := List.mem_flatMap.mp listed
        obtain ⟨_, here, same⟩ := List.mem_map.mp there
        obtain ⟨rfl, rfl⟩ := Prod.mk.injEq .. ▸ same
        obtain ⟨other, is⟩ := Option.ne_none_iff_exists'.mp (present _ listed)
        have from_ := added _ other (unregistered p among _ here) is
        obtain ⟨q, second, there⟩ := List.mem_flatMap.mp from_
        obtain ⟨_, right, same⟩ := List.mem_map.mp there
        obtain ⟨rfl, rfl⟩ := Prod.mk.injEq .. ▸ same
        rw [apart p among q second _ here right]
        exact is
      · exact kept ip key ((inv.tree ip key).mpr listed)

/-! ## Deletions -/

/-- An interface is that of the network of an address. -/
def Touches (wide : Addr) (netifs : List String) (s : State) (ip : Addr) (nic : String) : Prop :=
  nic ∈ netifs ∧ ∃ n ∈ s.network wide ip, n.nic = nic

/-- What deleting addresses does. -/
structure Shrunk (wide : Addr) (netifs : List String) (ips : List Addr) (s t : State) : Prop where
  containers : t.containers = s.containers
  tree : ∀ ip, t.tree ip = if ip ∈ ips then none else s.tree ip
  cleared : ∀ nic, (∃ ip ∈ ips, Touches wide netifs s ip nic) → t.addr nic = 0
  kept : ∀ nic, (∀ ip ∈ ips, ¬Touches wide netifs s ip nic) → t.addr nic = s.addr nic

theorem shrunk_delIp (ip : Addr) (s : State) :
    Shrunk wide netifs [ip] s (delIp wide netifs s ip) := by
  refine ⟨rfl, fun x => by simp [delIp, Function.update_apply], fun nic touched => ?_,
    fun nic none_ => ?_⟩
  · obtain ⟨_, only, listed, n, is, rfl⟩ := touched
    obtain rfl := List.mem_singleton.mp only
    rw [Option.mem_def] at is
    simp [delIp, delNetifIp, is, listed]
  · have other := none_ ip List.mem_cons_self
    unfold delIp delNetifIp
    cases is : s.network wide ip with
    | none => rfl
    | some n =>
      dsimp only
      split_ifs with listed
      · refine Function.update_of_ne (fun same => ?_) _ _
        subst same
        exact other ⟨listed, n, is, rfl⟩
      · rfl

/-- Deleting addresses one after another. -/
theorem shrunk_foldl (ips : List Addr) (s : State) :
    Shrunk wide netifs ips s (ips.foldl (delIp wide netifs) s) := by
  induction ips generalizing s with
  | nil => exact ⟨rfl, by simp, by simp, fun _ _ => rfl⟩
  | cons ip ips ih =>
    have now := @shrunk_delIp wide netifs ip s
    have later := ih (delIp wide netifs s ip)
    rw [List.foldl_cons]
    generalize ips.foldl _ _ = t at *
    refine ⟨later.containers, fun x => ?_, fun nic touched => ?_, fun nic none_ => ?_⟩
    · simp only [later.tree, now.tree, List.mem_cons]
      split_ifs <;> tauto
    · by_cases again : ∃ x ∈ ips, Touches wide netifs s x nic
      · exact later.cleared nic again
      · rw [later.kept nic fun x among touches => again ⟨x, among, touches⟩]
        obtain ⟨x, among, touches⟩ := touched
        rcases List.mem_cons.mp among with rfl | among
        · exact now.cleared nic ⟨x, List.mem_cons_self, touches⟩
        · exact absurd ⟨x, among, touches⟩ again
    · rw [later.kept nic fun x among => none_ x (List.mem_cons_of_mem _ among),
        now.kept nic fun x among => none_ x (by simp_all)]

/-- The containers without a port. -/
def withoutPort (id name : String) (containers : List Container) : List Container :=
  changeFirst id (·.eraseP (·.name == name)) containers

/-- A port is left exactly if it is not the one deleted. -/
theorem mem_eraseP_iff {ports : List Port} (names : (ports.map Port.name).Nodup) {name : String}
    {p : Port} : p ∈ ports.eraseP (·.name == name) ↔ p ∈ ports ∧ p.name ≠ name := by
  induction ports with
  | nil => simp
  | cons q ports ih =>
    obtain ⟨absent, later⟩ := List.nodup_cons.mp names
    by_cases same : q.name = name
    · rw [List.eraseP_cons_of_pos (by simpa using same)]
      have apart : p ∈ ports → p.name ≠ name := fun among is =>
        absent (List.mem_map.mpr ⟨p, among, is.trans same.symm⟩)
      grind
    · rw [List.eraseP_cons_of_neg (by simpa using same), List.mem_cons, ih later]
      grind

theorem lists_withoutPort (inv : Inv s) {id name : String} {key : Key} {ip : Addr} :
    Lists (withoutPort id name s.containers) key ip ↔
      Lists s.containers key ip ∧ key ≠ (id, name) := by
  obtain ⟨a, b⟩ := key
  unfold Lists withoutPort
  rw [changeFirst_eq_map inv.ids]
  simp only [List.mem_map, ne_eq, Prod.mk.injEq]
  constructor
  · rintro ⟨_, ⟨c, listed, rfl⟩, is, p, among, named, here⟩
    split_ifs at is among with same
    · rw [mem_eraseP_iff (inv.names c listed)] at among
      grind
    · grind
  · rintro ⟨⟨c, listed, is, p, among, named, here⟩, other⟩
    refine ⟨_, ⟨c, listed, rfl⟩, ?_⟩
    split_ifs with same
    · exact ⟨is, p, (mem_eraseP_iff (inv.names c listed)).mpr ⟨among, by grind⟩, named, here⟩
    · exact ⟨is, p, among, named, here⟩

/-- A deletion finds no port, or the only one of the name. -/
theorem delPort_cases (inv : Inv s) (id name : String) :
    ((∀ ip, ¬Lists s.containers (id, name) ip) ∧
      delPort wide netifs s id name = (some .notExist, s)) ∨
      ∃ p : Port, (∀ ip, Lists s.containers (id, name) ip ↔ ip ∈ p.ips) ∧
        delPort wide netifs s id name = (none, p.ips.foldl (delIp wide netifs)
          { s with containers := withoutPort id name s.containers }) := by
  unfold delPort
  cases found : s.containers.find? (·.id == id) with
  | none =>
    refine .inl ⟨?_, rfl⟩
    rintro ip ⟨c, listed, is, -⟩
    exact absurd (List.find?_eq_none.mp found c listed) (by simpa using is)
  | some c =>
    have listed := List.mem_of_find?_eq_some found
    have is : c.id = id := by simpa using List.find?_some found
    have only {d : Container} (among : d ∈ s.containers) (same : d.id = id) : d = c :=
      List.inj_on_of_nodup_map inv.ids among listed (same.trans is.symm)
    dsimp only
    cases there : c.ports.find? (·.name == name) with
    | none =>
      refine .inl ⟨?_, rfl⟩
      rintro ip ⟨d, among, same, p, has, named, -⟩
      obtain rfl := only among same
      exact absurd (List.find?_eq_none.mp there p has) (by simpa using named)
    | some p =>
      have among := List.mem_of_find?_eq_some there
      have named : p.name = name := by simpa using List.find?_some there
      refine .inr ⟨p, fun ip => ⟨?_, fun has => ⟨c, listed, is, p, among, named, has⟩⟩, rfl⟩
      rintro ⟨d, other, same, q, has, called, here⟩
      obtain rfl := only other same
      rwa [List.inj_on_of_nodup_map (inv.names d listed) among has (named.trans called.symm)]

/-- An addition changes nothing, or adds the ports that are left of the request. -/
theorem addContainer_cases (s : State) (c : Container) :
    ((addContainer wide netifs s c).2 = s ∧ Allowed wide netifs s (.add c)) ∨
      ∃ ports, (ports.map Port.name).Nodup ∧ (∀ p ∈ ports, s.hasPort c.id p.name = false) ∧
        (Allowed wide netifs s (.add c) ↔ Fresh s ports) ∧
        addContainer wide netifs s c =
          (none, (pairsOf c.id ports).foldl (fun s x => addIp wide netifs x.1 s x.2)
            { s with containers := putPorts c ports s.containers }) := by
  unfold addContainer
  cases valid : validateAddcontainerconfig wide netifs s c with
  | error e => exact .inl ⟨rfl, by simp [Allowed, valid]⟩
  | ok ports =>
    cases ports with
    | nil => exact .inl ⟨rfl, by simp [Allowed, valid, Fresh]⟩
    | cons p ports =>
      dsimp only
      cases counted : checkIpCount wide s (p :: ports) with
      | false => exact .inl ⟨rfl, by simp [Allowed, valid, counted]⟩
      | true =>
        obtain ⟨names, new⟩ := validate_ok valid
        refine .inr ⟨p :: ports, names, new, by simp [Allowed, valid, counted], ?_⟩
        simp only [Bool.true_eq_false, if_false, foldl_pairsOf]

/-! ## Every run -/

/-- An addition does what it should exactly if it is allowed, and keeps the ids apart. -/
theorem add_iff (inv : Inv s) (c : Container) :
    (Right wide netifs s (.add c) ↔ Allowed wide netifs s (.add c)) ∧
      ((addContainer wide netifs s c).2.containers.map Container.id).Nodup := by
  unfold Right
  dsimp only [handleContainer]
  rcases @addContainer_cases wide netifs s c with
    ⟨same, allowed⟩ | ⟨ports, names, new, allowed, is⟩
  · rw [same]
    exact ⟨iff_of_true ⟨inv.toConsistent, fun _ => rfl, nofun⟩ allowed, inv.ids⟩
  · obtain ⟨ids, nodup⟩ := inv.putPorts names new
    have grown := @grown_foldl wide netifs (pairsOf c.id ports)
      { s with containers := putPorts c ports s.containers }
    rw [is, allowed, ← tree_iff_fresh inv new grown]
    dsimp only
    rw [grown.containers]
    refine ⟨⟨fun right => grown.containers ▸ right.1.tree, fun exact_ => ?_⟩, ids⟩
    exact ⟨⟨grown.containers ▸ exact_, by rw [grown.containers]; exact nodup⟩,
      fun some_ => absurd rfl some_, nofun⟩

/-- A deletion does what it should exactly if it is allowed, and keeps the registry. -/
theorem del_iff (inv : Inv s) (id name : String) :
    (Right wide netifs s (.del id name) ↔ Allowed wide netifs s (.del id name)) ∧
      ((delPort wide netifs s id name).2.containers.map Container.id).Nodup := by
  unfold Right Allowed
  dsimp only [handleContainer]
  rcases @delPort_cases wide netifs _ inv id name with
    ⟨nowhere, is⟩ | ⟨p, lists, is⟩
  · rw [is]
    exact ⟨iff_of_true ⟨inv.toConsistent, fun _ => rfl, fun _ _ _ _ _ => rfl⟩
      fun ip listed => absurd listed (nowhere ip), inv.ids⟩
  · have shrunk := @shrunk_foldl wide netifs p.ips
      { s with containers := withoutPort id name s.containers }
    rw [is]
    dsimp only
    generalize p.ips.foldl _ _ = t at *
    have ids : (t.containers.map Container.id).Nodup := by
      rw [shrunk.containers, withoutPort, changeFirst_eq_map inv.ids, List.map_map]
      convert inv.ids using 2
      funext d
      simp only [Function.comp]
      split_ifs <;> rfl
    have consistent : Consistent t := by
      refine ⟨fun ip key => ?_, fun d listed => ?_⟩
      · rw [shrunk.containers, lists_withoutPort inv, shrunk.tree, ← inv.tree]
        dsimp only
        split_ifs with listed
        · have own := (inv.tree ip (id, name)).mpr ((lists ip).mpr listed)
          rw [own]
          simp only [Option.some.injEq, false_iff, not_and, not_not]
          exact fun same => same.symm
        · have other : s.tree ip ≠ some (id, name) := fun own =>
            listed ((lists ip).mp ((inv.tree ip (id, name)).mp own))
          exact ⟨fun is => ⟨is, fun same => other (same ▸ is)⟩, fun is => is.1⟩
      · rw [shrunk.containers, withoutPort, changeFirst_eq_map inv.ids] at listed
        obtain ⟨e, among, rfl⟩ := List.mem_map.mp listed
        split_ifs
        · exact (inv.names e among).sublist (List.eraseP_sublist.map _)
        · exact inv.names e among
    refine ⟨⟨fun right ip listed n is used => ?_, fun allowed => ⟨consistent, nofun, ?_⟩⟩, ids⟩
    · by_contra other
      rw [not_or] at other
      have kept := right.2.2 id name rfl n.nic other.2
      rw [shrunk.cleared n.nic ⟨ip, (lists ip).mp listed, used, n, is, rfl⟩] at kept
      exact other.1 kept.symm
    · rintro _ _ ⟨rfl, rfl⟩ nic other
      by_cases touched : ∃ ip ∈ p.ips, Touches wide netifs s ip nic
      · rw [shrunk.cleared nic touched]
        obtain ⟨ip, listed, used, n, is, rfl⟩ := touched
        rcases allowed ip ((lists ip).mpr listed) n is used with zero | own
        · exact zero.symm
        · exact absurd own other
      · exact shrunk.kept nic fun ip listed touches => touched ⟨ip, listed, touches⟩

/-- In every run of requests that are allowed the registry is consistent, and from every state
reached a further request does what it should exactly if it is allowed. -/
theorem registry_iff (wide : Addr) (netifs : List String) (networks : List Network)
    (addr : String → Addr) (s : State) :
    (Runs (act wide netifs) (Allowed wide netifs) (start networks addr) s → Consistent s) ∧
      ∀ r, Runs (act wide netifs) (Allowed wide netifs) (start networks addr) s →
        (Right wide netifs s r ↔ Allowed wide netifs s r) := by
  have step (s : State) (r : ContainerRequest) (inv : Inv s) :
      (Right wide netifs s r ↔ Allowed wide netifs s r) ∧
        ((handleContainer wide netifs s r).2.containers.map Container.id).Nodup := by
    cases r with
    | add c => exact add_iff inv c
    | del id name => exact del_iff inv id name
  have inv (run : Runs (act wide netifs) (Allowed wide netifs) (start networks addr) s) :
      Inv s := by
    refine run.invariant (P := Inv) ?_ fun s r t inv allowed taken => ?_
    · exact ⟨⟨by simp [start, Lists], by simp [start]⟩, by simp [start]⟩
    · obtain rfl := Option.some.inj taken
      exact ⟨((step s r inv).1.mpr allowed).1, (step s r inv).2⟩
  exact ⟨fun run => (inv run).toConsistent, fun r run => (step s r (inv run)).1⟩

/-- An address is registered again after another took its place on the interface. -/
theorem address_listed_twice :
    ∃ s, Runs (act (BitVec.allOnes 32) ["eth0"]) (fun _ _ => True) (start [ten] fun _ => 0) s ∧
      Lists s.containers ("container", "a") 0x0100000A ∧
      Lists s.containers ("container", "c") 0x0100000A := by
  have executed : ∃ s, Runs (act (BitVec.allOnes 32) ["eth0"]) (fun _ _ => True)
      (start [ten] fun _ => 0) s ∧
      decide (s.containers = [⟨"container", [⟨"c", [0x0100000A]⟩, ⟨"b", [0x0200000A]⟩,
        ⟨"a", [0x0100000A]⟩]⟩]) = true :=
    exists_runs_of_execute (fun _ _ => true)
      [.add ⟨"container", [⟨"a", [0x0100000A]⟩]⟩, .add ⟨"container", [⟨"b", [0x0200000A]⟩]⟩,
        .add ⟨"container", [⟨"c", [0x0100000A]⟩]⟩] (fun _ _ _ => trivial) (by decide +kernel)
  obtain ⟨s, run, is⟩ := executed
  rw [decide_eq_true_eq] at is
  exact ⟨s, run, by simp [is, Lists], by simp [is, Lists]⟩

end Dmm.Ip
