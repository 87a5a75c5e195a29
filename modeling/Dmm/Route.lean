import Mathlib

/-!
# Routing to a stack by address

`nstack_rd_ip.c` and `nstack_rd_get_stackid`: a list of address prefixes, kept in descending
order of mask length, gives the stack of an address. A list node is its item; `hlist` links,
the item's type and its reserved words are left out. Addresses in the list are in local byte
order, those of a key in network order.

The scan of an insertion compares each prefix with a mask value that was computed before the
inserted address was read, so it is always 0.
-/

namespace Dmm.Route

/-- `rd_data_item` with `rd_ip_data` -/
structure RdItem where
  stackId : Int
  agetime : Int
  addr : UInt32
  masklen : UInt32
  deriving DecidableEq, Repr

/-- `NSTACK_RD_AGETIME_MAX` -/
def agetimeMax : Int := 1

/-- `NSTACK_RD_SUCCESS` -/
def rdSuccess : Int := 0

/-- `NSTACK_RD_FAIL` -/
def rdFail : Int := -1

/-- `MASK_V`; a shift by 32 is undefined in C and happens with an address of 0 only. -/
def maskV (ipaddr masklen : UInt32) : UInt32 := ipaddr &&& (~~~0 <<< (32 - masklen))

/-- The prefix of an item. -/
def RdItem.maskv (item : RdItem) : UInt32 := maskV item.addr item.masklen

/-- `ntohl` on a little-endian machine -/
def ntohl (x : UInt32) : UInt32 :=
  ((x &&& 0xff) <<< 24) ||| ((x &&& 0xff00) <<< 8) ||| ((x &&& 0xff0000) >>> 8) |||
    ((x &&& 0xff000000) >>> 24)

/-- `ip_maskv`: `MASK_V (ip_addr, ip_masklen)` while both still are 0. -/
def ipMaskv : UInt32 := maskV 0 0

/-- The loop of `nstack_rd_ip_item_insert`; an empty list gets the item as its head. -/
def insertScan (pitem : RdItem) : List RdItem → List RdItem
  | [] => [pitem]
  | tempdata :: rest =>
    if pitem.masklen < tempdata.masklen then tempdata :: insertScan pitem rest
    else if ipMaskv = tempdata.maskv then
      -- if already exist, just return success
      { tempdata with stackId := pitem.stackId, agetime := agetimeMax } :: rest
    else pitem :: tempdata :: rest

/-- `nstack_rd_ip_item_insert`, with the result of `malloc`. -/
def ipItemInsert (allocated : Bool) (hlist : List RdItem) (pitem : RdItem) :
    Int × List RdItem :=
  if allocated then (rdSuccess, insertScan pitem hlist) else (rdFail, hlist)

/-- `nstack_rd_ip_item_find`; `none` is `NSTACK_RD_FAIL`. -/
def ipItemFind (hlist : List RdItem) (ipAddr : UInt32) : Option RdItem :=
  hlist.find? fun tempdata => maskV (ntohl ipAddr) tempdata.masklen == tempdata.maskv

/-- `nstack_rd_ip_spec`: the stack of multicast addresses, if there is one. -/
def rdIpSpec (multiStackid : Int) (ipAddr : UInt32) : Int :=
  if ntohl ipAddr &&& 0xf0000000 = 0xe0000000 then multiStackid else -1

/-- `nstack_rd_get_stackid` for a key of type `RD_DATA_TYPE_IP`. -/
def rdGetStackid (hlist : List RdItem) (multiStackid rdItemDefault : Int) (ipAddr : UInt32) : Int :=
  if rdIpSpec multiStackid ipAddr ≥ 0 then rdIpSpec multiStackid ipAddr
  else match ipItemFind hlist ipAddr with
    | some item => item.stackId
    | none => rdItemDefault

/-- Insertions one after the other, each with memory for its node. -/
def insertAll (hlist : List RdItem) (history : List RdItem) : List RdItem :=
  history.foldl (fun hlist pitem => (ipItemInsert true hlist pitem).2) hlist

/-! ## What routing means -/

/-- The prefix of an item covers an address (in local byte order). -/
def Matches (item : RdItem) (address : UInt32) : Prop := maskV address item.masklen = item.maskv

/-- Two items are for the same prefix. -/
def SamePrefix (a b : RdItem) : Prop := a.masklen = b.masklen ∧ a.maskv = b.maskv

/-- The entry of a history that decides on an address: no matching entry before it is longer,
and every matching entry after it is shorter. -/
def Decides (history : List RdItem) (address : UInt32) (entry : RdItem) : Prop :=
  ∃ before after, history = before ++ entry :: after ∧ Matches entry address ∧
    (∀ e ∈ before, Matches e address → e.masklen ≤ entry.masklen) ∧
    ∀ e ∈ after, Matches e address → e.masklen < entry.masklen

/-- The list routes by longest prefix, the latest entry first, and is in order. -/
structure Routes (hlist history : List RdItem) : Prop where
  found : ∀ ipAddr item, ipItemFind hlist ipAddr = some item →
    ∃ entry, Decides history (ntohl ipAddr) entry ∧ entry.stackId = item.stackId
  fails : ∀ ipAddr, ipItemFind hlist ipAddr = none ↔
    ∀ e ∈ history, ¬ Matches e (ntohl ipAddr)
  descending : hlist.Pairwise fun a b => b.masklen ≤ a.masklen
  distinct : hlist.Pairwise fun a b => ¬ SamePrefix a b

/-! ## Which insertions are handled right -/

/-- The node at which the scan of an insertion stops. -/
def stopAt (hlist : List RdItem) (pitem : RdItem) : Option RdItem :=
  hlist.find? fun tempdata => decide (¬ pitem.masklen < tempdata.masklen)

/-- An insertion is handled right: if the scan stops at a prefix whose masked address is 0, that is
the prefix inserted; otherwise the prefix inserted is not in the list yet. -/
def Fits (hlist : List RdItem) (pitem : RdItem) : Prop :=
  ∀ tempdata ∈ stopAt hlist pitem,
    if tempdata.maskv = 0 then SamePrefix tempdata pitem
    else ∀ x ∈ hlist, ¬ SamePrefix x pitem

/-- Every insertion of a history is handled right. -/
def AllFit (hlist : List RdItem) : List RdItem → Prop
  | [] => True
  | pitem :: rest => Fits hlist pitem ∧ AllFit (ipItemInsert true hlist pitem).2 rest

instance (a b : RdItem) : Decidable (SamePrefix a b) := inferInstanceAs (Decidable (_ ∧ _))

instance (item : RdItem) (address : UInt32) : Decidable (Matches item address) :=
  inferInstanceAs (Decidable (_ = _))

instance (hlist : List RdItem) (pitem : RdItem) : Decidable (Fits hlist pitem) :=
  inferInstanceAs (Decidable (∀ tempdata ∈ stopAt hlist pitem, _))

instance AllFit.decide : (hlist history : List RdItem) → Decidable (AllFit hlist history)
  | _, [] => inferInstanceAs (Decidable True)
  | hlist, pitem :: rest =>
    haveI := AllFit.decide (ipItemInsert true hlist pitem).2 rest
    inferInstanceAs (Decidable (Fits hlist pitem ∧ _))

/-- The list holds each prefix of the history once, with the stack of its latest entry. -/
structure Latest (hlist history : List RdItem) : Prop where
  descending : hlist.Pairwise fun a b => b.masklen ≤ a.masklen
  distinct : hlist.Pairwise fun a b => ¬ SamePrefix a b
  stored : ∀ e ∈ history, ∃ x ∈ hlist, SamePrefix e x
  current : ∀ x ∈ hlist, ∃ before e after, history = before ++ e :: after ∧ SamePrefix e x ∧
    e.stackId = x.stackId ∧ ∀ y ∈ after, ¬ SamePrefix y x

theorem SamePrefix.symm {a b : RdItem} (same : SamePrefix a b) : SamePrefix b a :=
  ⟨same.1.symm, same.2.symm⟩

theorem SamePrefix.trans {a b c : RdItem} (left : SamePrefix a b) (right : SamePrefix b c) :
    SamePrefix a c :=
  ⟨left.1.trans right.1, left.2.trans right.2⟩

theorem SamePrefix.matches_iff {a b : RdItem} (same : SamePrefix a b) (address : UInt32) :
    Matches a address ↔ Matches b address := by
  unfold Matches
  rw [same.1, same.2]

/-- Two prefixes of one length that match an address are one prefix. -/
theorem samePrefix_of_matches {a b : RdItem} {address : UInt32} (left : Matches a address)
    (right : Matches b address) (lengths : a.masklen = b.masklen) : SamePrefix a b := by
  refine ⟨lengths, ?_⟩
  rw [← left, ← right, lengths]

/-- What an insertion does to the list: past the longer prefixes, it either updates the node it
stops at or puts the new node in front of it. -/
theorem insertScan_cases (pitem : RdItem) (hlist : List RdItem) :
    ∃ longer rest, hlist = longer ++ rest ∧ (∀ x ∈ longer, pitem.masklen < x.masklen) ∧
      stopAt hlist pitem = rest.head? ∧ (∀ x ∈ rest.head?, x.masklen ≤ pitem.masklen) ∧
      ((∃ tempdata tail, rest = tempdata :: tail ∧ tempdata.maskv = 0 ∧
          insertScan pitem hlist =
            longer ++ { tempdata with stackId := pitem.stackId, agetime := agetimeMax } :: tail) ∨
        ((∀ x ∈ rest.head?, x.maskv ≠ 0) ∧ insertScan pitem hlist = longer ++ pitem :: rest)) := by
  induction hlist with
  | nil => exact ⟨[], [], by simp [insertScan, stopAt]⟩
  | cons tempdata tail hypothesis =>
    by_cases skip : pitem.masklen < tempdata.masklen
    · obtain ⟨longer, rest, split, above, stop, below, outcome⟩ := hypothesis
      refine ⟨tempdata :: longer, rest, by rw [split]; rfl, ?_, ?_, below, ?_⟩
      · intro x member
        rcases List.mem_cons.mp member with same | member
        · exact same ▸ skip
        · exact above x member
      · rw [← stop]
        simp [stopAt, skip]
      · have scanned : insertScan pitem (tempdata :: tail) = tempdata :: insertScan pitem tail := by
          simp [insertScan, skip]
        rw [scanned]
        rcases outcome with ⟨t, tail', head, zero, result⟩ | ⟨nonzero, result⟩
        · exact Or.inl ⟨t, tail', head, zero, by rw [result]; rfl⟩
        · exact Or.inr ⟨nonzero, by rw [result]; rfl⟩
    · refine ⟨[], tempdata :: tail, rfl, by simp, by simp [stopAt, UInt32.not_lt.mp skip],
        ?_, ?_⟩
      · intro x member
        obtain rfl : tempdata = x := by simpa using member
        exact UInt32.not_lt.mp skip
      · have zero : ipMaskv = 0 := by decide
        by_cases same : tempdata.maskv = 0
        · exact Or.inl ⟨tempdata, tail, rfl, same, by simp [insertScan, skip, zero, same]⟩
        · refine Or.inr ⟨by simpa using same, ?_⟩
          have other : ¬ (0 : UInt32) = tempdata.maskv := fun equal => same equal.symm
          simp [insertScan, skip, zero, other]

/-- A later entry for another prefix does not change which entry is current. -/
theorem Latest.current_append {hlist history : List RdItem} (latest : Latest hlist history)
    {x pitem : RdItem} (member : x ∈ hlist) (other : ¬ SamePrefix pitem x) :
    ∃ before e after, history ++ [pitem] = before ++ e :: after ∧ SamePrefix e x ∧
      e.stackId = x.stackId ∧ ∀ y ∈ after, ¬ SamePrefix y x := by
  obtain ⟨before, e, after, split, same, stack, last⟩ := latest.current x member
  refine ⟨before, e, after ++ [pitem], by simp [split], same, stack, ?_⟩
  intro y member
  rcases List.mem_append.mp member with old | new
  · exact last y old
  · rw [List.mem_singleton.mp new]
    exact other

/-- Updating the node of the inserted prefix. -/
theorem Latest.update {longer tail history : List RdItem} {tempdata pitem : RdItem}
    (latest : Latest (longer ++ tempdata :: tail) history) (same : SamePrefix tempdata pitem) :
    Latest (longer ++ { tempdata with stackId := pitem.stackId, agetime := agetimeMax } :: tail)
      (history ++ [pitem]) := by
  -- the updated node is for the same prefix, so order and distinctness carry over
  have descending := latest.descending
  have separate := latest.distinct
  rw [List.pairwise_append, List.pairwise_cons] at descending separate
  constructor
  · rw [List.pairwise_append, List.pairwise_cons]
    refine ⟨descending.1, descending.2.1, ?_⟩
    intro a left b right
    rcases List.mem_cons.mp right with rfl | right
    · exact descending.2.2 a left tempdata List.mem_cons_self
    · exact descending.2.2 a left b (List.mem_cons_of_mem _ right)
  · rw [List.pairwise_append, List.pairwise_cons]
    refine ⟨separate.1, separate.2.1, ?_⟩
    intro a left b right
    rcases List.mem_cons.mp right with rfl | right
    · exact separate.2.2 a left tempdata List.mem_cons_self
    · exact separate.2.2 a left b (List.mem_cons_of_mem _ right)
  · intro e member
    have old : ∃ x ∈ longer ++ tempdata :: tail, SamePrefix e x := by
      rcases List.mem_append.mp member with old | new
      · exact latest.stored e old
      · rw [List.mem_singleton.mp new]
        exact ⟨tempdata, by simp, same.symm⟩
    obtain ⟨x, place, equal⟩ := old
    rcases List.mem_append.mp place with place | place
    · exact ⟨x, by simp [place], equal⟩
    · rcases List.mem_cons.mp place with rfl | place
      · exact ⟨_, List.mem_append_right _ List.mem_cons_self, equal⟩
      · exact ⟨x, by simp [place], equal⟩
  · intro x member
    rcases List.mem_append.mp member with place | place
    · apply latest.current_append (by simp [place])
      intro equal
      exact separate.2.2 x place tempdata List.mem_cons_self (equal.symm.trans same.symm)
    · rcases List.mem_cons.mp place with rfl | place
      · exact ⟨history, pitem, [], rfl, same.symm, rfl, by simp⟩
      · apply latest.current_append (by simp [place])
        intro equal
        exact separate.2.1.1 x place (same.trans equal)

/-- Adding a node for a prefix the list does not have. -/
theorem Latest.add {longer rest history : List RdItem} {pitem : RdItem}
    (latest : Latest (longer ++ rest) history)
    (above : ∀ x ∈ longer, pitem.masklen < x.masklen)
    (below : ∀ x ∈ rest.head?, x.masklen ≤ pitem.masklen)
    (fresh : ∀ x ∈ longer ++ rest, ¬ SamePrefix x pitem) :
    Latest (longer ++ pitem :: rest) (history ++ [pitem]) := by
  have descending := latest.descending
  have separate := latest.distinct
  rw [List.pairwise_append] at descending separate
  constructor
  · rw [List.pairwise_append, List.pairwise_cons]
    refine ⟨descending.1, ⟨?_, descending.2.1⟩, ?_⟩
    · -- the rest is in order, so its head bounds it
      intro b member
      cases rest with
      | nil => simp at member
      | cons head tail =>
        have first : head.masklen ≤ pitem.masklen := below head rfl
        rcases List.mem_cons.mp member with rfl | member
        · exact first
        · exact UInt32.le_trans ((List.pairwise_cons.mp descending.2.1).1 b member) first
    · intro a left b right
      rcases List.mem_cons.mp right with rfl | right
      · exact UInt32.le_of_lt (above a left)
      · exact descending.2.2 a left b right
  · rw [List.pairwise_append, List.pairwise_cons]
    refine ⟨separate.1, ⟨?_, separate.2.1⟩, ?_⟩
    · intro b member equal
      exact fresh b (List.mem_append_right _ member) equal.symm
    · intro a left b right
      rcases List.mem_cons.mp right with rfl | right
      · exact fresh a (List.mem_append_left _ left)
      · exact separate.2.2 a left b right
  · intro e member
    rcases List.mem_append.mp member with old | new
    · obtain ⟨x, place, equal⟩ := latest.stored e old
      refine ⟨x, ?_, equal⟩
      rcases List.mem_append.mp place with place | place <;> simp [place]
    · exact ⟨pitem, by simp, by rw [List.mem_singleton.mp new]; exact ⟨rfl, rfl⟩⟩
  · intro x member
    have place : x ∈ longer ++ rest ∨ x = pitem := by
      simp only [List.mem_append, List.mem_cons] at member ⊢
      tauto
    rcases place with place | rfl
    · exact latest.current_append place fun equal => fresh x place equal.symm
    · exact ⟨history, x, [], rfl, ⟨rfl, rfl⟩, rfl, by simp⟩

/-- An insertion that is handled right keeps the list current. -/
theorem Latest.insert {hlist history : List RdItem} {pitem : RdItem}
    (latest : Latest hlist history) (fits : Fits hlist pitem) :
    Latest (ipItemInsert true hlist pitem).2 (history ++ [pitem]) := by
  obtain ⟨longer, rest, split, above, stop, below, outcome⟩ := insertScan_cases pitem hlist
  show Latest (insertScan pitem hlist) (history ++ [pitem])
  rcases outcome with ⟨tempdata, tail, rfl, zero, result⟩ | ⟨nonzero, result⟩
  · have same := fits tempdata stop
    rw [if_pos zero] at same
    rw [result]
    exact (split ▸ latest).update same
  · rw [result]
    apply (split ▸ latest).add above below
    intro x member equal
    cases rest with
    | nil =>
      -- every node is longer than the inserted prefix
      have longer := above x (by simpa using member)
      rw [equal.1] at longer
      exact UInt32.lt_irrefl _ longer
    | cons head tail =>
      have fresh := fits head stop
      rw [if_neg (nonzero head rfl)] at fresh
      exact fresh x (split ▸ member) equal

/-- Any number of insertions that are handled right keep the list current. -/
theorem Latest.insertAll {hlist history : List RdItem} (latest : Latest hlist history)
    (added : List RdItem) (fits : AllFit hlist added) :
    Latest (insertAll hlist added) (history ++ added) := by
  induction added generalizing hlist history with
  | nil => simpa [Route.insertAll] using latest
  | cons pitem rest hypothesis =>
    have step := hypothesis (latest.insert fits.1) fits.2
    rw [List.append_assoc] at step
    exact step

/-- The prefix found is the longest the list has for the address. -/
theorem Latest.found_longest {hlist history : List RdItem} (latest : Latest hlist history)
    {ipAddr : UInt32} {item e : RdItem} (found : ipItemFind hlist ipAddr = some item)
    (member : e ∈ history) (covers : Matches e (ntohl ipAddr)) : e.masklen ≤ item.masklen := by
  obtain ⟨x, place, same⟩ := latest.stored e member
  have matching : Matches x (ntohl ipAddr) := (same.matches_iff _).mp covers
  obtain ⟨-, before, after, split, unmatched⟩ := List.find?_eq_some_iff_append.mp found
  rw [same.1]
  have descending := latest.descending
  rw [split] at place descending
  rw [List.pairwise_append, List.pairwise_cons] at descending
  rcases List.mem_append.mp place with place | place
  · have contrary := unmatched x place
    simp [matching.symm] at contrary
  · rcases List.mem_cons.mp place with rfl | place
    · exact UInt32.le_refl _
    · exact descending.2.1.1 x place

/-- A current list routes. -/
theorem Latest.routes {hlist history : List RdItem} (latest : Latest hlist history) :
    Routes hlist history := by
  constructor
  · intro ipAddr item found
    have covers : Matches item (ntohl ipAddr) := by
      simpa [Matches] using List.find?_some found
    obtain ⟨before, e, after, split, same, stack, last⟩ :=
      latest.current item (List.mem_of_find?_eq_some found)
    refine ⟨e, ⟨before, after, split, (same.matches_iff _).mpr covers, ?_, ?_⟩, stack⟩
    · intro y member matching
      rw [same.1]
      exact latest.found_longest found (by simp [split, member]) matching
    · intro y member matching
      have bound := latest.found_longest found (by simp [split, member]) matching
      rw [same.1]
      apply UInt32.lt_of_le_of_ne bound
      intro equal
      exact last y member (samePrefix_of_matches matching covers equal)
  · intro ipAddr
    constructor
    · intro missing e member matching
      obtain ⟨x, place, same⟩ := latest.stored e member
      have contrary := List.find?_eq_none.mp missing x place
      have covers : Matches x (ntohl ipAddr) := (same.matches_iff _).mp matching
      simp only [beq_iff_eq] at contrary
      exact contrary covers
    · intro none
      apply List.find?_eq_none.mpr
      intro x place equal
      obtain ⟨before, e, after, split, same, -⟩ := latest.current x place
      have covers : Matches x (ntohl ipAddr) := by simpa [Matches] using equal
      exact none e (by simp [split]) ((same.matches_iff _).mpr covers)
  · exact latest.descending
  · exact latest.distinct

/-- An address that is not multicast goes where its deciding entry says, or to the default stack. -/
theorem Routes.rdGetStackid {hlist history : List RdItem} (routes : Routes hlist history)
    (multiStackid rdItemDefault : Int) (ipAddr : UInt32)
    (plain : rdIpSpec multiStackid ipAddr < 0) :
    ((∀ e ∈ history, ¬ Matches e (ntohl ipAddr)) ∧
        rdGetStackid hlist multiStackid rdItemDefault ipAddr = rdItemDefault) ∨
      ∃ entry, Decides history (ntohl ipAddr) entry ∧
        rdGetStackid hlist multiStackid rdItemDefault ipAddr = entry.stackId := by
  have unspecific : ¬ rdIpSpec multiStackid ipAddr ≥ 0 := by omega
  cases result : ipItemFind hlist ipAddr with
  | none =>
    refine Or.inl ⟨(routes.fails ipAddr).mp result, ?_⟩
    simp [Route.rdGetStackid, unspecific, result]
  | some item =>
    obtain ⟨entry, decides, stack⟩ := routes.found ipAddr item result
    exact Or.inr ⟨entry, decides, by simp [Route.rdGetStackid, unspecific, result, stack]⟩

theorem latest_nil : Latest [] [] := ⟨.nil, .nil, by simp, by simp⟩

/-- Routing is by longest prefix after any insertions that are handled right. -/
theorem longest_prefix_of_fits (history : List RdItem) (fits : AllFit [] history) :
    Routes (insertAll [] history) history ∧
      ∀ multiStackid rdItemDefault ipAddr, rdIpSpec multiStackid ipAddr < 0 →
        ((∀ e ∈ history, ¬ Matches e (ntohl ipAddr)) ∧
            rdGetStackid (insertAll [] history) multiStackid rdItemDefault ipAddr =
              rdItemDefault) ∨
          ∃ entry, Decides history (ntohl ipAddr) entry ∧
            rdGetStackid (insertAll [] history) multiStackid rdItemDefault ipAddr =
              entry.stackId := by
  have routes : Routes (insertAll [] history) history := (latest_nil.insertAll history fits).routes
  exact ⟨routes, routes.rdGetStackid⟩

/-- A prefix and its stack, with full age. -/
def entryOf (addr masklen : UInt32) (stackId : Int) : RdItem := ⟨stackId, agetimeMax, addr, masklen⟩

/-- Three prefixes, one inside another, and a second stack for the whole-zero host prefix. -/
theorem longest_prefix_four_insertions :
    AllFit [] [entryOf 0x0a000000 8 0, entryOf 0x0a010000 16 1, entryOf 0 32 0, entryOf 0 32 1] ∧
      Routes (insertAll [] [entryOf 0x0a000000 8 0, entryOf 0x0a010000 16 1, entryOf 0 32 0,
          entryOf 0 32 1])
        [entryOf 0x0a000000 8 0, entryOf 0x0a010000 16 1, entryOf 0 32 0, entryOf 0 32 1] := by
  have fits : AllFit [] [entryOf 0x0a000000 8 0, entryOf 0x0a010000 16 1, entryOf 0 32 0,
      entryOf 0 32 1] := by decide +kernel
  exact ⟨fits, (longest_prefix_of_fits _ fits).1⟩

/-- 10.0.0.0/8 inserted after 0.0.0.0/8 is lost and its stack goes to 0.0.0.0/8; 10.0.0.0/8
inserted twice has two nodes. -/
theorem insertion_misrouted :
    (ipItemFind (insertAll [] [entryOf 0 8 0, entryOf 0x0a000000 8 1]) 0x0100000a = none ∧
      Matches (entryOf 0x0a000000 8 1) (ntohl 0x0100000a)) ∧
    ipItemFind (insertAll [] [entryOf 0 8 0, entryOf 0x0a000000 8 1]) 0x01000000 =
      some (entryOf 0 8 1) ∧
    insertAll [] [entryOf 0x0a000000 8 0, entryOf 0x0a000000 8 1] =
      [entryOf 0x0a000000 8 1, entryOf 0x0a000000 8 0] ∧
    ¬ Routes (insertAll [] [entryOf 0 8 0, entryOf 0x0a000000 8 1])
      [entryOf 0 8 0, entryOf 0x0a000000 8 1] := by
  have lost :
      ipItemFind (insertAll [] [entryOf 0 8 0, entryOf 0x0a000000 8 1]) 0x0100000a = none := by
    decide +kernel
  have covers : Matches (entryOf 0x0a000000 8 1) (ntohl 0x0100000a) := by decide +kernel
  refine ⟨⟨lost, covers⟩, by decide +kernel, by decide +kernel, ?_⟩
  intro routes
  exact (routes.fails _).mp lost _ (by simp) covers

end Dmm.Route
