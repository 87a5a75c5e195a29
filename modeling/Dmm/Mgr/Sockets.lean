import Dmm.Mgr.Com

/-!
# Looking up the socket of a process

`nsfw_mgr_new_socket` records the process of an fd, and the fd in the cache of the process type.
The two agree until an fd is recorded with another type: the cache of the old type keeps the fd,
and `nsfw_mgr_get_dst_socket` takes a cached fd with a pid without looking at its type.
-/

namespace Dmm.Mgr

/-- `nsfw_mgr_del_socket` -/
def delSocket (fd : Nat) (map : SockMap) : SockMap :=
  if map.fdMax ≤ fd then map else
  let procType := (map.sock fd).procType
  { map with
    procCache := if procType < procMax ∧ map.procCache procType = fd then
      Function.update map.procCache procType 0 else map.procCache
    sock := Function.update map.sock fd ⟨0, 0⟩ }

/-- The calls that change the table. -/
inductive SockOp
  | new (fd : Int) (procType hostPid : Nat)
  | del (fd : Nat)

/-- The table, and the fds that are registered. The code does not record the latter: a deleted fd
and one registered with type and pid 0 have the same entry. -/
structure Registry where
  map : SockMap
  registered : Nat → Bool

/-- The table `nsfw_mgr_com_module_init` leaves. -/
def Registry.init (fdMax : Nat) : Registry := ⟨⟨fun _ => 0, fun _ => ⟨0, 0⟩, fdMax⟩, fun _ => false⟩

/-- One call. -/
def Registry.step (r : Registry) : SockOp → Registry
  | .new fd procType hostPid =>
    ⟨newSocket fd procType hostPid r.map, if (r.map.fdMax : Int) ≤ fd ∨ fd < 0 then r.registered
      else Function.update r.registered fd.toNat true⟩
  | .del fd => ⟨delSocket fd r.map, if r.map.fdMax ≤ fd then r.registered
      else Function.update r.registered fd false⟩

/-- What is found is registered for the type, and for the pid if both are known. -/
def LookupSound (r : Registry) : Prop :=
  ∀ procType pid, ∀ fd : Nat, getDstSocket procType pid r.map = fd →
    r.registered fd = true ∧ (r.map.sock fd).procType = procType ∧
      ((r.map.sock fd).hostPid = 0 ∨ (r.map.sock fd).hostPid = pid ∨ pid = 0)

/-- Lookups are sound before and after each call of a run. -/
def SoundThroughout : Registry → List SockOp → Prop
  | r, [] => LookupSound r
  | r, op :: ops => LookupSound r ∧ SoundThroughout (r.step op) ops

/-- A call does not leave an fd in the cache of a type it is not registered for: it does not
record another type with a pid, nor delete an fd that only the cache of type 0 has. -/
def KeepsCache (r : Registry) : SockOp → Prop
  | .new fd procType hostPid => fd < r.map.fdMax → 0 < fd → hostPid ≠ 0 →
      ∀ cached < procMax, r.map.procCache cached = fd → cached = procType
  | .del fd => fd < r.map.fdMax → 0 < fd → r.map.procCache 0 = fd → (r.map.sock fd).procType = 0

/-- Each call of a run keeps to this. -/
def CacheKept : Registry → List SockOp → Prop
  | _, [] => True
  | r, op :: ops => KeepsCache r op ∧ CacheKept (r.step op) ops

/-- What holds of the table whatever is called. -/
structure Registry.Kept (r : Registry) : Prop where
  known : ∀ fd, (r.map.sock fd).hostPid ≠ 0 → r.registered fd = true
  cache : ∀ procType, 0 ≤ r.map.procCache procType

/-- An entry that is found through a cache is the right one. -/
def Registry.Fresh (r : Registry) : Prop :=
  ∀ procType < procMax, ∀ fd : Nat, r.map.procCache procType = fd → 0 < fd → fd < r.map.fdMax →
    ((r.map.sock fd).hostPid ≠ 0 → (r.map.sock fd).procType = procType) ∧
    ((r.map.sock fd).hostPid = 0 → (r.map.sock fd).procType = procType → r.registered fd = true)

variable {r : Registry} {op : SockOp}

theorem newSocket_sock (fd : Int) (procType hostPid i : Nat) (map : SockMap) :
    (newSocket fd procType hostPid map).sock i =
      if ¬ ((map.fdMax : Int) ≤ fd ∨ fd < 0) ∧ i = fd.toNat then ⟨procType, hostPid⟩
      else map.sock i := by
  unfold newSocket
  split <;> simp_all [Function.update_apply]

theorem newSocket_procCache (fd : Int) (procType hostPid i : Nat) (map : SockMap) :
    (newSocket fd procType hostPid map).procCache i =
      if ¬ ((map.fdMax : Int) ≤ fd ∨ fd < 0) ∧ procType < procMax ∧ i = procType then fd
      else map.procCache i := by
  unfold newSocket
  split <;> [skip; split] <;> simp_all [Function.update_apply]

theorem delSocket_sock (fd i : Nat) (map : SockMap) :
    (delSocket fd map).sock i = if fd < map.fdMax ∧ i = fd then ⟨0, 0⟩ else map.sock i := by
  unfold delSocket
  split <;> simp_all [Function.update_apply]

theorem delSocket_procCache (fd i : Nat) (map : SockMap) :
    (delSocket fd map).procCache i =
      if fd < map.fdMax ∧ i < procMax ∧ map.procCache i = fd ∧ i = (map.sock fd).procType then 0
      else map.procCache i := by
  unfold delSocket
  split
  · grind
  · split <;> grind [Function.update_apply]

theorem fdMax_step (r : Registry) (op : SockOp) : (r.step op).map.fdMax = r.map.fdMax := by
  cases op with
  | new fd procType hostPid => simp only [Registry.step, newSocket]; split <;> rfl
  | del fd => simp only [Registry.step, delSocket]; split <;> rfl

theorem registered_new (r : Registry) (fd : Int) (procType hostPid i : Nat) :
    (r.step (.new fd procType hostPid)).registered i =
      if ¬ ((r.map.fdMax : Int) ≤ fd ∨ fd < 0) ∧ i = fd.toNat then true else r.registered i := by
  simp only [Registry.step]
  split <;> simp_all [Function.update_apply]

theorem registered_del (r : Registry) (fd i : Nat) :
    (r.step (.del fd)).registered i =
      if fd < r.map.fdMax ∧ i = fd then false else r.registered i := by
  simp only [Registry.step]
  split <;> simp_all [Function.update_apply]

theorem Registry.Kept.step (kept : r.Kept) (op : SockOp) : (r.step op).Kept := by
  obtain ⟨known, cache⟩ := kept
  cases op with
  | new fd procType hostPid =>
    exact ⟨by grind [newSocket_sock, registered_new, Registry.step],
      by grind [newSocket_procCache, Registry.step]⟩
  | del fd =>
    exact ⟨by grind [delSocket_sock, registered_del, Registry.step],
      by grind [delSocket_procCache, Registry.step]⟩

/-- A lookup answers from the cache, or finds an entry with a pid. -/
theorem getDstSocket_cases {procType pid : Nat} {map : SockMap} {fd : Nat}
    (found : getDstSocket procType pid map = fd) :
    (procType < procMax ∧ map.procCache procType = fd ∧ 0 < fd ∧ fd < map.fdMax ∧
      ((map.sock fd).hostPid = 0 ∧ (map.sock fd).procType = procType ∨
        (map.sock fd).hostPid ≠ 0 ∧ (pid = 0 ∨ pid = (map.sock fd).hostPid))) ∨
    ((map.sock fd).hostPid ≠ 0 ∧ (map.sock fd).procType = procType ∧
      (pid = 0 ∨ pid = (map.sock fd).hostPid)) := by
  simp only [getDstSocket] at found
  generalize cache : (if procType < procMax then map.procCache procType else -1) = cached at found
  rw [ite_eq_iff] at found
  obtain ⟨usable, rfl⟩ | ⟨-, found⟩ := found
  · rw [Int.toNat_natCast, Bool.and_eq_true, decide_eq_true_eq] at usable
    split at usable <;> grind
  · split at found
    · rename_i i scan
      have entry := List.find?_some scan
      grind
    · omega

/-- Lookups are sound exactly if the caches are right. -/
theorem Registry.Kept.lookupSound_iff (kept : r.Kept) : LookupSound r ↔ r.Fresh := by
  constructor
  · intro sound procType below fd cached positive inRange
    have found : (r.map.sock fd).hostPid ≠ 0 ∨ (r.map.sock fd).procType = procType →
        getDstSocket procType 0 r.map = fd := by
      intro usable
      unfold getDstSocket
      grind
    grind [sound procType 0 fd]
  · intro fresh procType pid fd found
    obtain ⟨below, cached, positive, inRange, match_⟩ | ⟨known, match_⟩ := getDstSocket_cases found
    · grind [fresh procType below fd cached positive inRange, kept.known fd]
    · grind [kept.known fd]

/-- A call keeps the caches right exactly if it keeps to the condition. -/
theorem Registry.Kept.fresh_step_iff (kept : r.Kept) (fresh : r.Fresh) :
    (r.step op).Fresh ↔ KeepsCache r op := by
  have := kept.cache
  cases op with
  | new fd procType hostPid =>
    constructor
    · intro after inRange positive known cached below same
      have entry := (after cached below fd.toNat)
      grind [newSocket_sock, newSocket_procCache, fdMax_step, Registry.step]
    · intro keeps procType' below fd' cached positive inRange
      have entry := fresh procType' below fd'
      grind [newSocket_sock, newSocket_procCache, registered_new, fdMax_step, Registry.step,
        KeepsCache]
  | del fd =>
    constructor
    · intro after inRange positive cached
      have entry := after 0 (by decide) fd
      grind [delSocket_sock, delSocket_procCache, registered_del, fdMax_step, Registry.step]
    · intro keeps procType' below fd' cached positive inRange
      have entry := fresh procType' below fd'
      grind [delSocket_sock, delSocket_procCache, registered_del, fdMax_step, Registry.step,
        KeepsCache, procMax]

/-- Along a run the lookups are sound exactly if each call keeps the caches. -/
theorem soundThroughout_iff {ops : List SockOp} (kept : r.Kept) (fresh : r.Fresh) :
    SoundThroughout r ops ↔ CacheKept r ops := by
  induction ops generalizing r with
  | nil => exact iff_of_true (kept.lookupSound_iff.mpr fresh) trivial
  | cons op ops ih =>
    have now := kept.lookupSound_iff.mpr fresh
    have next : SoundThroughout (r.step op) ops → LookupSound (r.step op) := by
      cases ops with
      | nil => exact id
      | cons _ _ => exact And.left
    have after := (kept.step op).lookupSound_iff
    have step := @Registry.Kept.fresh_step_iff _ op kept fresh
    constructor
    · intro sound
      have fresh' := after.mp (next sound.2)
      exact ⟨step.mp fresh', (ih (kept.step op) fresh').mp sound.2⟩
    · intro keeps
      exact ⟨now, (ih (kept.step op) (step.mpr keeps.1)).mpr keeps.2⟩

/-- The lookups of a run from the table of a started process are all sound exactly if no call
leaves an fd in the cache of a type it is not registered for. -/
theorem lookup_sound_iff (fdMax : Nat) (ops : List SockOp) :
    SoundThroughout (Registry.init fdMax) ops ↔ CacheKept (Registry.init fdMax) ops := by
  apply soundThroughout_iff
  · constructor <;> simp [Registry.init]
  · intro procType below fd cached positive
    simp only [Registry.init] at cached
    omega

/-- Fd 5 is registered for type 3 and then for type 4; a lookup of type 3 still answers 5. -/
theorem lookup_finds_other_type :
    let r := ((Registry.init 16).step (.new 5 3 100)).step (.new 5 4 100)
    getDstSocket 3 100 r.map = 5 ∧ (r.map.sock 5).procType = 4 := by
  decide

end Dmm.Mgr
