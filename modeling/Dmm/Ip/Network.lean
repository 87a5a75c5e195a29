import Mathlib

/-!
# Networks

The configured networks are kept in a list with the longest masks first, and an address belongs to
the first network whose subnet contains it. The mask of a subnet is computed by a shift; for an
empty mask this is a shift by the whole width, which C leaves open: what it gives is the parameter
`wide`.
-/

namespace Dmm.Ip

/-! ## Requests -/

/-- An address. -/
abbrev Addr := BitVec 32

/-- `struct network_configuration`: its name, subnet in host order, the length of the mask, is it of
type `nstack-dpdk`, and the bond or first nic it is on. -/
structure Network where
  name : String
  subnet : Addr
  maskLen : Nat
  dpdk : Bool
  nic : String
  maskLen_le : maskLen ≤ 32
  deriving DecidableEq

/-- `spl_ntohl` on a little-endian machine. -/
def splNtohl (x : Addr) : Addr :=
  x.extractLsb' 0 8 ++ x.extractLsb' 8 8 ++ x.extractLsb' 16 8 ++ x.extractLsb' 24 8

/-- `is_in_subnet`, which returns zero for yes. -/
def isInSubnet (wide ip : Addr) (n : Network) : Bool :=
  let mask := if n.maskLen = 0 then wide else BitVec.allOnes 32 <<< (32 - n.maskLen)
  ip &&& mask == n.subnet &&& mask

/-- `get_network_by_ip_with_tree` -/
def getNetworkByIpWithTree (wide : Addr) (networks : List Network) (ip : Addr) : Option Network :=
  networks.find? (isInSubnet wide (splNtohl ip))

/-- `strcasecmp` gives zero. -/
def sameName (a b : String) : Bool := a.toLower == b.toLower

/-- `MAX_NETWORK_COUNT` -/
def maxNetworkCount : Nat := 64

/-- `add_network_to_list` -/
def addNetworkToList (n : Network) : List Network → List Network
  | [] => [n]
  | curr :: rest =>
    if curr.maskLen ≤ n.maskLen then n :: curr :: rest else curr :: addNetworkToList n rest

/-- `add_network_configuration`; `ok` if the rest of the request has no network of this name, its
nics exist, and none of them is bonded otherwise. -/
def addNetworkConfiguration (ok : Bool) (n : Network) (networks : List Network) :
    Option (List Network) :=
  if networks.any (sameName n.name ·.name) || decide (maxNetworkCount ≤ networks.length) || !ok then
    none
  else some (addNetworkToList n networks)

/-- `del_network_by_name` -/
def delNetworkByName (name : String) : List Network → Option (List Network)
  | [] => none
  | n :: rest =>
    if sameName name n.name then some rest else (delNetworkByName name rest).map (n :: ·)

/-- A request. -/
inductive Request
  | add (ok : Bool) (n : Network)
  | del (name : String)

/-- A request that fails leaves the list. -/
def handle (networks : List Network) : Request → List Network
  | .add ok n => (addNetworkConfiguration ok n networks).getD networks
  | .del name => (delNetworkByName name networks).getD networks

/-! ## Longest prefixes -/

/-- The first bits of an address in host order are those of the subnet. -/
def Network.Contains (n : Network) (h : Addr) : Prop :=
  h >>> (32 - n.maskLen) = n.subnet >>> (32 - n.maskLen)

/-- The answer to a lookup is a network with the longest mask of those that contain the address. -/
def LongestPrefix (networks : List Network) (h : Addr) : Option Network → Prop
  | some n => n ∈ networks ∧ n.Contains h ∧ ∀ m ∈ networks, m.Contains h → m.maskLen ≤ n.maskLen
  | none => ∀ m ∈ networks, ¬m.Contains h

/-- Where no subnet with a mask contains an address and there is one without, the latter is found by
what the shift gives. -/
def Meets (wide : Addr) (networks : List Network) (h : Addr) : Prop :=
  (∀ n ∈ networks, n.maskLen ≠ 0 → ¬n.Contains h) → (∃ n ∈ networks, n.maskLen = 0) →
    ∃ n ∈ networks, n.maskLen = 0 ∧ h &&& wide = n.subnet &&& wide

/-- Comparing under a mask is comparing the shifted addresses. -/
theorem and_mask_eq_iff {k : Nat} (a b : Addr) :
    a &&& BitVec.allOnes 32 <<< k = b &&& BitVec.allOnes 32 <<< k ↔ a >>> k = b >>> k := by
  constructor
  · intro same
    ext i before
    by_cases inside : k + i < 32
    · have bit := congrArg (BitVec.getLsbD · (k + i)) same
      simpa only [BitVec.getLsbD_and, BitVec.getLsbD_shiftLeft, BitVec.getLsbD_allOnes, inside,
        Nat.not_lt.mpr (Nat.le_add_right k i), Nat.add_sub_cancel_left, before, decide_true,
        decide_false, Bool.not_false, Bool.and_true, BitVec.getElem_ushiftRight] using bit
    · simp [BitVec.getLsbD_of_ge _ _ (Nat.le_of_not_lt inside)]
  · intro same
    ext i before
    by_cases low : i < k
    · simp [low]
    · have bit := congrArg (BitVec.getLsbD · (i - k)) same
      have sum : k + (i - k) = i := by omega
      simp only [BitVec.getLsbD_ushiftRight, sum, BitVec.getLsbD_eq_getElem before] at bit
      simp [bit]

theorem isInSubnet_iff {wide h : Addr} {n : Network} :
    isInSubnet wide h n = true ↔
      if n.maskLen = 0 then h &&& wide = n.subnet &&& wide else n.Contains h := by
  unfold isInSubnet Network.Contains
  dsimp only
  split_ifs with empty
  · exact beq_iff_eq
  · rw [beq_iff_eq, and_mask_eq_iff]

theorem contains_of_maskLen_eq_zero {n : Network} (empty : n.maskLen = 0) (h : Addr) :
    n.Contains h := by
  unfold Network.Contains
  rw [empty]
  simp [BitVec.ushiftRight_eq_zero]

/-- The longest masks come first. -/
def Sorted (networks : List Network) : Prop :=
  networks.Pairwise fun m n => n.maskLen ≤ m.maskLen

theorem mem_addNetworkToList {m n : Network} {networks : List Network} :
    m ∈ addNetworkToList n networks ↔ m = n ∨ m ∈ networks := by
  induction networks with
  | nil => simp [addNetworkToList]
  | cons curr rest ih =>
    unfold addNetworkToList
    split_ifs
    · simp
    · simp only [List.mem_cons, ih]
      tauto

/-- A new network is put before the shorter masks. -/
theorem Sorted.addNetworkToList {networks : List Network} (sorted : Sorted networks) (n : Network) :
    Sorted (addNetworkToList n networks) := by
  induction networks with
  | nil => simp [Ip.addNetworkToList, Sorted]
  | cons curr rest ih =>
    obtain ⟨first, later⟩ := List.pairwise_cons.mp sorted
    unfold Ip.addNetworkToList
    split_ifs with shorter
    · refine List.pairwise_cons.mpr ⟨fun m listed => ?_, sorted⟩
      rcases List.mem_cons.mp listed with rfl | listed
      · exact shorter
      · exact Nat.le_trans (first m listed) shorter
    · refine List.pairwise_cons.mpr ⟨fun m listed => ?_, ih later⟩
      rcases mem_addNetworkToList.mp listed with rfl | listed
      · omega
      · exact first m listed

theorem delNetworkByName_sublist {name : String} {networks left : List Network}
    (deleted : delNetworkByName name networks = some left) : left.Sublist networks := by
  induction networks generalizing left with
  | nil => exact absurd deleted nofun
  | cons n rest ih =>
    unfold delNetworkByName at deleted
    split_ifs at deleted
    · obtain rfl := Option.some.inj deleted
      exact List.sublist_cons_self n rest
    · obtain ⟨more, later, rfl⟩ := Option.map_eq_some_iff.mp deleted
      exact (ih later).cons_cons n

theorem Sorted.handle {networks : List Network} (sorted : Sorted networks) (r : Request) :
    Sorted (handle networks r) := by
  cases r with
  | add ok n =>
    simp only [Ip.handle, addNetworkConfiguration]
    split_ifs
    · exact sorted
    · exact sorted.addNetworkToList n
  | del name =>
    simp only [Ip.handle]
    cases deleted : delNetworkByName name networks with
    | none => exact sorted
    | some left => exact sorted.sublist (delNetworkByName_sublist deleted)

/-- A lookup in a sorted list is exact exactly if it meets the condition. -/
theorem lookup_sorted_iff {networks : List Network} (sorted : Sorted networks) (wide h : Addr) :
    LongestPrefix networks h (networks.find? (isInSubnet wide h)) ↔ Meets wide networks h := by
  have masked {n : Network} (mask : n.maskLen ≠ 0) : isInSubnet wide h n = true ↔ n.Contains h := by
    rw [isInSubnet_iff, if_neg mask]
  have unmasked {n : Network} (empty : n.maskLen = 0) :
      isInSubnet wide h n = true ↔ h &&& wide = n.subnet &&& wide := by
    rw [isInSubnet_iff, if_pos empty]
  cases found : networks.find? (isInSubnet wide h) with
  | none =>
    rw [List.find?_eq_none] at found
    constructor
    · intro nowhere _ ⟨n, listed, empty⟩
      exact absurd (contains_of_maskLen_eq_zero empty h) (nowhere n listed)
    · intro meets m listed contains
      have empty : m.maskLen = 0 := by
        by_contra mask
        exact found m listed ((masked mask).mpr contains)
      obtain ⟨n, among, empty, same⟩ := meets
        (fun n among mask contains => found n among ((masked mask).mpr contains)) ⟨m, listed, empty⟩
      exact found n among ((unmasked empty).mpr same)
  | some n =>
    obtain ⟨inside, before, after, rfl, earlier⟩ := List.find?_eq_some_iff_append.mp found
    obtain ⟨-, follow, ordered⟩ := List.pairwise_append.mp sorted
    have contains : n.Contains h := by
      by_cases empty : n.maskLen = 0
      · exact contains_of_maskLen_eq_zero empty h
      · exact (masked empty).mp inside
    refine iff_of_true ⟨by simp, contains, fun m listed among => ?_⟩ fun none_ some_ => ?_
    · rcases List.mem_append.mp listed with listed | listed
      · -- a network before the one found that contains the address has no mask
        have missed := earlier m listed
        by_cases empty : m.maskLen = 0
        · omega
        · simp [(masked empty).mpr among] at missed
      · rcases List.mem_cons.mp listed with rfl | listed
        · exact Nat.le_refl _
        · exact List.rel_of_pairwise_cons follow listed
    · have empty : n.maskLen = 0 := by
        by_contra mask
        exact none_ n (by simp) mask contains
      exact ⟨n, by simp, empty, (unmasked empty).mp inside⟩

/-- After every sequence of requests, the lookup of an address is that of the longest prefix exactly
if it meets the condition. -/
theorem network_lookup_iff (wide : Addr) (requests : List Request) (ip : Addr) :
    LongestPrefix (requests.foldl handle []) (splNtohl ip)
        (getNetworkByIpWithTree wide (requests.foldl handle []) ip) ↔
      Meets wide (requests.foldl handle []) (splNtohl ip) := by
  have sorted : Sorted (requests.foldl handle []) :=
    List.foldlRecOn (motive := Sorted) requests handle List.Pairwise.nil
      fun _ sorted r _ => sorted.handle r
  exact lookup_sorted_iff sorted wide _

/-- A network of all addresses is not found where a shift by the whole width leaves the number:
10.0.0.1 is in no network. -/
theorem all_addresses_not_found :
    ∃ (wide ip : Addr) (n : Network), n.maskLen = 0 ∧
      n ∈ [Request.add true n].foldl handle [] ∧
      getNetworkByIpWithTree wide ([Request.add true n].foldl handle []) ip = none :=
  ⟨BitVec.allOnes 32, 0x0100000A, ⟨"all", 0, 0, true, "eth0", by decide⟩, rfl,
    List.mem_singleton.mpr rfl,
    by decide⟩

end Dmm.Ip
