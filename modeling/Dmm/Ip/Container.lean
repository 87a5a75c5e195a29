import Dmm.Ip.Network
import Mathlib

/-!
# Container addresses

A container has ports and a port lists addresses. The registered addresses are also in a search
tree, and the last address added to a network is that of its interface. `add_container` checks a
request before anything of it is applied, addresses only against the interfaces.

A port is known by its container and its name. The interfaces are known by their names, and the
networks are those of the other module.
-/

namespace Dmm.Ip

/-! ## Requests for containers -/

/-- `struct container_port` with the addresses of `ip_cidr_list`, in network order. -/
structure Port where
  name : String
  ips : List Addr
  deriving DecidableEq

/-- `struct container_ip` -/
structure Container where
  id : String
  ports : List Port
  deriving DecidableEq

/-- A container and the name of one of its ports. -/
abbrev Key := String × String

/-- The networks, the list of containers, `g_container_ip_root` and the addresses of interfaces. -/
structure State where
  networks : List Network
  containers : List Container
  tree : Addr → Option Key
  addr : String → Addr

/-- The error of a request. -/
inductive Err
  | exist
  | err
  | ipCountExceed
  | notExist
  deriving DecidableEq, Repr

/-- `MAX_NETWORK_IP_COUNT` -/
def maxNetworkIpCount : Nat := 1024

variable (wide : Addr) (netifs : List String)

/-- The network an address is in. -/
def State.network (s : State) (ip : Addr) : Option Network :=
  getNetworkByIpWithTree wide s.networks ip

/-- `get_netif_by_ip` finds an interface. -/
def hasNetif (addr : String → Addr) (ip : Addr) : Bool :=
  decide (ip ≠ 0) && netifs.any fun nic => addr nic == ip

/-- `get_port` finds one. -/
def State.hasPort (s : State) (id name : String) : Bool :=
  s.containers.any fun c => c.id == id && c.ports.any (·.name == name)

/-- The loop of `validate_addcontainerconfig` over the addresses of a port: is it used. -/
def usesPort (s : State) (name : String) : List Addr → Except Err Bool
  | [] => .ok true
  | ip :: ips =>
    match s.network wide ip with
    | some n =>
      if n.dpdk = false then .ok false
      else if hasNetif netifs s.addr ip then .error .exist
      else if n.nic ∉ netifs then .error .err
      else if name = "" then .ok false
      else usesPort s name ips
    | none => .ok false

/-- The loop over the ports, which leaves those that are used. -/
def usedPorts (s : State) : List Port → Except Err (List Port)
  | [] => .ok []
  | p :: ports => do
    let used ← usesPort wide netifs s p.name p.ips
    let rest ← usedPorts s ports
    return if used then p :: rest else rest

/-- `validate_addcontainerconfig`: the ports that are left of the request. -/
def validateAddcontainerconfig (s : State) (c : Container) : Except Err (List Port) :=
  if c.ports.any fun p => s.hasPort c.id p.name then .error .exist
  else if ¬(c.ports.map Port.name).Nodup then .error .exist
  else usedPorts wide netifs s c.ports

/-- The addresses of a list of ports. -/
def addresses (ports : List Port) : List Addr := ports.flatMap Port.ips

/-- The registered addresses. -/
def State.registered (s : State) : List Addr := addresses (s.containers.flatMap Container.ports)

/-- `check_ip_count`: the addresses are compared as they are, in network order. Of its three
comparisons that of the sum decides. -/
def checkIpCount (s : State) (ports : List Port) : Bool :=
  s.networks.all fun n =>
    decide ((s.registered ++ addresses ports).countP (isInSubnet wide · n) ≤ maxNetworkIpCount)

/-- `add_netif_ip` -/
def addNetifIp (nic : String) (ip : Addr) (addr : String → Addr) : String → Addr :=
  if hasNetif netifs addr ip ∨ nic ∉ netifs then addr else Function.update addr nic ip

/-- An address of a port is configured and put into the tree; `trp_rb_insert` leaves one that is
there. -/
def addIp (key : Key) (s : State) (ip : Addr) : State where
  networks := s.networks
  containers := s.containers
  addr := match s.network wide ip with
    | some n => addNetifIp netifs n.nic ip s.addr
    | none => s.addr
  tree := if s.tree ip = none then Function.update s.tree ip (some key) else s.tree

/-- Change the first container of an id. -/
def changeFirst (id : String) (change : List Port → List Port) : List Container → List Container
  | [] => []
  | d :: rest =>
    if d.id = id then { d with ports := change d.ports } :: rest
    else d :: changeFirst id change rest

/-- The ports are put at the front of those of their container, or with a new one. -/
def putPorts (c : Container) (ports : List Port) (containers : List Container) : List Container :=
  if containers.any (·.id == c.id) then changeFirst c.id (ports ++ ·) containers
  else { c with ports } :: containers

/-- `add_container`. It looks for the names once more, which `validate_addcontainerconfig` has
done. -/
def addContainer (s : State) (c : Container) : Option Err × State :=
  match validateAddcontainerconfig wide netifs s c with
  | .error e => (some e, s)
  | .ok [] => (none, s)
  | .ok ports =>
    if checkIpCount wide s ports = false then (some .ipCountExceed, s)
    else
      (none, ports.foldl (fun s p => p.ips.foldl (addIp wide netifs (c.id, p.name)) s)
        { s with containers := putPorts c ports s.containers })

/-- `del_netif_ip` -/
def delNetifIp (nic : String) (addr : String → Addr) : String → Addr :=
  if nic ∈ netifs then Function.update addr nic 0 else addr

/-- An address of a deleted port, in `free_container_port_ip_cidr`. -/
def delIp (s : State) (ip : Addr) : State where
  networks := s.networks
  containers := s.containers
  addr := match s.network wide ip with
    | some n => delNetifIp netifs n.nic s.addr
    | none => s.addr
  tree := Function.update s.tree ip none

/-- `del_port` -/
def delPort (s : State) (id name : String) : Option Err × State :=
  match s.containers.find? (·.id == id) with
  | none => (some .notExist, s)
  | some c =>
    match c.ports.find? (·.name == name) with
    | none => (some .notExist, s)
    | some p =>
      (none, p.ips.foldl (delIp wide netifs) { s with
        containers := changeFirst id (·.eraseP (·.name == name)) s.containers })

/-! ## The limit of addresses -/

/-- The number of addresses that are in a network. -/
def State.count (s : State) (n : Network) (ips : List Addr) : Nat :=
  ips.countP fun ip => s.network wide ip == some n

/-- After an addition no network has more addresses than the limit. -/
def Limited (s : State) (c : Container) : Prop :=
  let done := addContainer wide netifs s c
  done.1 = none → ∀ n ∈ done.2.networks, done.2.count wide n done.2.registered ≤ maxNetworkIpCount

/-- If a network has more addresses than the limit with those that are left of the request, then a
network has more than the limit of them in network order; no network has more if none is left. -/
def Counts (s : State) (c : Container) : Prop :=
  match validateAddcontainerconfig wide netifs s c with
  | .error _ => True
  | .ok [] => ∀ n ∈ s.networks, s.count wide n s.registered ≤ maxNetworkIpCount
  | .ok ports =>
    (∃ n ∈ s.networks, maxNetworkIpCount < s.count wide n (s.registered ++ addresses ports)) →
      ∃ n ∈ s.networks,
        maxNetworkIpCount < (s.registered ++ addresses ports).countP (isInSubnet wide · n)

variable {wide netifs}

/-- Putting ports into the first container of their id. -/
theorem changeFirst_perm {id : String} {ports : List Port} {containers : List Container}
    (there : containers.any (·.id == id) = true) :
    ((changeFirst id (ports ++ ·) containers).flatMap Container.ports).Perm
      (containers.flatMap Container.ports ++ ports) := by
  induction containers with
  | nil => simp at there
  | cons d rest ih =>
    unfold changeFirst
    split_ifs with same
    · rw [List.flatMap_cons, List.flatMap_cons, List.append_assoc]
      exact List.perm_append_comm
    · rw [List.flatMap_cons, List.flatMap_cons, List.append_assoc]
      exact (ih (by simpa [same] using there)).append_left _

theorem putPorts_perm (c : Container) (ports : List Port) (containers : List Container) :
    (addresses ((putPorts c ports containers).flatMap Container.ports)).Perm
      (addresses (containers.flatMap Container.ports) ++ addresses ports) := by
  have ports_perm : ((putPorts c ports containers).flatMap Container.ports).Perm
      (containers.flatMap Container.ports ++ ports) := by
    unfold putPorts
    split_ifs with there
    · exact changeFirst_perm there
    · rw [List.flatMap_cons]
      exact List.perm_append_comm
  unfold addresses
  rw [← List.flatMap_append]
  exact ports_perm.flatMap_right _

theorem foldl_addIp_frame (id : String) (ports : List Port) (s : State) :
    let t := ports.foldl (fun s p => p.ips.foldl (addIp wide netifs (id, p.name)) s) s
    t.networks = s.networks ∧ t.containers = s.containers := by
  refine List.foldlRecOn (motive := fun t : State =>
    t.networks = s.networks ∧ t.containers = s.containers) ports _ ⟨rfl, rfl⟩ fun t kept p _ => ?_
  exact List.foldlRecOn (motive := fun u : State =>
    u.networks = s.networks ∧ u.containers = s.containers) p.ips _ kept fun u kept ip _ => kept

/-- An addition keeps to the limit exactly if the two counts agree on it. -/
theorem address_limit_iff (wide : Addr) (netifs : List String) (s : State) (c : Container) :
    Limited wide netifs s c ↔ Counts wide netifs s c := by
  unfold Limited Counts addContainer
  cases validateAddcontainerconfig wide netifs s c with
  | error e => simp
  | ok ports =>
    cases ports with
    | nil => simp
    | cons p ports =>
      obtain ⟨networks, containers⟩ := @foldl_addIp_frame wide netifs c.id
        (p :: ports) { s with containers := putPorts c (p :: ports) s.containers }
      dsimp only
      generalize (p :: ports).foldl _ _ = t at *
      have counts (n : Network) : t.count wide n t.registered =
          s.count wide n (s.registered ++ addresses (p :: ports)) := by
        unfold State.count State.registered State.network
        rw [networks, containers]
        exact (putPorts_perm c (p :: ports) s.containers).countP_eq _
      have passes : checkIpCount wide s (p :: ports) = true ↔ ¬∃ n ∈ s.networks, maxNetworkIpCount <
          (s.registered ++ addresses (p :: ports)).countP (isInSubnet wide · n) := by
        simp [checkIpCount]
      by_cases counted : checkIpCount wide s (p :: ports) = true
      · rw [if_neg (by simp [counted]), networks, iff_false_intro (passes.mp counted)]
        simp only [counts, true_implies, imp_false, not_exists, not_and, Nat.not_lt]
      · have above := not_not.mp (mt passes.mpr counted)
        rw [if_pos (by simpa using counted)]
        exact iff_of_true nofun fun _ => above

/-- 10.0.0.0/8, on the interface `eth0`. -/
def ten : Network := ⟨"ten", 0x0A000000, 8, true, "eth0", by decide⟩

/-- A port of 10.0.0.0/8 with an address more than the limit. -/
def many : Container :=
  ⟨"container", [⟨"port", (List.range 1025).map fun k => BitVec.ofNat 32 (10 + 256 * k)⟩]⟩

/-- The port is added: read in network order, none of its addresses is in the network. -/
theorem limit_exceeded : ∃ s : State, s.registered = [] ∧ s.networks = [ten] ∧
    ¬Limited (BitVec.allOnes 32) ["eth0"] s many := by
  refine ⟨⟨[ten], [], fun _ => none, fun _ => 0⟩, rfl, rfl, ?_⟩
  unfold Limited
  decide +kernel

end Dmm.Ip
