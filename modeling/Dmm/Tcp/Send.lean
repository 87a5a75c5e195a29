import Mathlib

/-!
# Sending on a TCP socket

`sbr_tcp_write` and `sbr_tcp_writev` cut the data into segments of at most `mss` bytes, one pbuf
each, and post them to the stack in messages of up to five. They differ in the data only: a buffer,
or the entries of an iovec array, read through the two cursors of `sbr_tcp_writev_fill_buf`.

Which allocations and which posts succeed is given.
-/

namespace Dmm.Tcp.Send

/-! ## The loop -/

/-- A pbuf with a segment; its number is how many were allocated before. -/
structure Seg where
  id : Nat
  payload : List UInt8
  deriving DecidableEq, Repr

/-- What a call does: the messages it posts for writing, the pbufs it hands over to be freed, how
many it allocates and what it reports, `none` for -1. -/
structure Sent where
  posted : List (List Seg)
  freed : List Seg
  allocated : Nat
  ret : Option Nat
  deriving DecidableEq, Repr

/-- `SPL_TCP_SEND_MAX_SEG_PER_MSG` -/
def maxSegPerMsg : Nat := 5

/-- The loop of `sbr_tcp_write` and `sbr_tcp_writev` over `size` bytes, which `fill` copies from a
place: `allocs` says which allocations succeed, none after its end, and `posts` which posts do.
`head` is the list from `p_head`. -/
def sendLoop {γ : Type} (fill : γ → Nat → List UInt8 × γ) (mss size : Nat) (posts : Nat → Bool) :
    List Bool → (pos : Nat) → γ → (head : List Seg) → (posted : List (List Seg)) →
      (allocated : Nat) → Sent
  | allocs, pos, place, head, posted, allocated =>
    if size ≤ pos then ⟨posted, [], allocated, some size⟩
    else match allocs with
      | [] | false :: _ =>
        if head ≠ [] ∧ posts posted.length = false then ⟨posted, head, allocated, none⟩
        else ⟨if head = [] then posted else posted ++ [head], [], allocated,
          if pos = 0 then none else some pos⟩
      | true :: allocs =>
        let (bytes, place) := fill place (min (size - pos) mss)
        let head := head ++ [⟨allocated, bytes⟩]
        let pos := pos + bytes.length
        if maxSegPerMsg ≤ head.length ∨ size ≤ pos then
          if posts posted.length = false then ⟨posted, head, allocated + 1, none⟩
          else sendLoop fill mss size posts allocs pos place [] (posted ++ [head]) (allocated + 1)
        else sendLoop fill mss size posts allocs pos place head posted (allocated + 1)

/-- `sbr_tcp_write_fill_buf` -/
def writeFillBuf (data : List UInt8) (pos seglen : Nat) : List UInt8 × Nat :=
  ((data.drop pos).take seglen, pos + seglen)

/-- `sbr_tcp_write` -/
def sbrTcpWrite (data : List UInt8) (mss : Nat) (allocs : List Bool) (posts : Nat → Bool) : Sent :=
  if data.length = 0 then ⟨[], [], 0, some 0⟩
  else sendLoop (writeFillBuf data) mss data.length posts allocs 0 0 [] [] 0

/-- The loop of `sbr_tcp_writev_fill_buf` from an entry and a position in it, with `copy` bytes to
go: the bytes, how many entries it finished and the position in the next. The room left in the pbuf
is `copy`. -/
def fillFrom : List (List UInt8) → (iovPos copy : Nat) → List UInt8 × Nat × Nat
  | [], iovPos, _ => ([], 0, iovPos)
  | entry :: rest, iovPos, copy =>
    if copy = 0 then ([], 0, iovPos)
    else
      let left := entry.length - iovPos
      let bytes := (entry.drop iovPos).take (min left copy)
      if left = copy then (bytes, 1, 0)
      else if copy < left then (bytes, 0, iovPos + min left copy)
      else
        let (more, done, iovPos) := fillFrom rest 0 (copy - min left copy)
        (bytes ++ more, done + 1, iovPos)

/-- `sbr_tcp_writev_fill_buf`, from `iov_var` and `iov_pos`. -/
def writevFillBuf (iov : List (List UInt8)) (place : Nat × Nat) (seglen : Nat) :
    List UInt8 × Nat × Nat :=
  let (bytes, done, iovPos) := fillFrom (iov.drop place.1) place.2 seglen
  (bytes, place.1 + done, iovPos)

/-- The loop of `sbr_tcp_writev` over the lengths, with `SBR_MAX_INTEGER`. -/
def sizeOf : List (List UInt8) → (size : Nat) → Nat
  | [], size => size
  | entry :: rest, size =>
    if 0x7FFFFFFF - entry.length ≤ size then 0x7FFFFFFF else sizeOf rest (size + entry.length)

/-- `sbr_tcp_writev` -/
def sbrTcpWritev (iov : List (List UInt8)) (mss : Nat) (allocs : List Bool) (posts : Nat → Bool) :
    Sent :=
  if mss ≤ 0 then ⟨[], [], 0, none⟩
  else sendLoop (writevFillBuf iov) mss (sizeOf iov 0) posts allocs 0 (0, 0) [] [] 0

/-! ## Segments -/

/-- The bytes of some pbufs. -/
def bytesOf (segs : List Seg) : List UInt8 := segs.flatMap Seg.payload

/-- A call reports what it has posted, posts nothing if it fails, and hands over each pbuf it has
allocated once. -/
def Exact (data : List UInt8) (sent : Sent) : Prop :=
  (∀ r, sent.ret = some r → bytesOf sent.posted.flatten = data.take r ∧ r ≤ data.length) ∧
    (sent.ret = none → bytesOf sent.posted.flatten = []) ∧
    (sent.posted.flatten ++ sent.freed).map Seg.id = List.range sent.allocated

/-- How many allocations succeed before one fails. -/
def granted : List Bool → Nat
  | true :: allocs => granted allocs + 1
  | _ => 0

/-- The segments that `fill` copies from a place are these, none of them empty. -/
def Follows {γ : Type} (fill : γ → Nat → List UInt8 × γ) (mss : Nat) :
    List (List UInt8) → γ → Prop
  | [], _ => True
  | seg :: rest, place =>
    seg ≠ [] ∧ (fill place (min (seg :: rest).flatten.length mss)).1 = seg ∧
      Follows fill mss rest (fill place (min (seg :: rest).flatten.length mss)).2

/-- What the loop does with the segments still to come. -/
structure Posts (posts : Nat → Bool) (posted : List (List Seg)) (before : List UInt8)
    (todo : List (List UInt8)) (head n : Nat) (sent : Sent) (k : Nat) : Prop where
  least : posted.length ≤ k
  most : k ≤ posted.length + (head + n + 4) / 5
  passed : ∀ j, posted.length ≤ j → j < k → posts j = true
  stopped : k < posted.length + (head + n + 4) / 5 → posts k = false ∧ sent.ret = none
  count : sent.posted.length = k
  filled : ∀ batch ∈ sent.posted, bytesOf batch ≠ []
  ids : (sent.posted.flatten ++ sent.freed).map Seg.id = List.range sent.allocated
  all : k = posted.length + (head + n + 4) / 5 →
    bytesOf sent.posted.flatten = before ++ (todo.take n).flatten ∧
      sent.ret = if before ++ (todo.take n).flatten = [] ∧ todo ≠ [] then none
        else some (before ++ (todo.take n).flatten).length

section Loop

variable {γ : Type} {fill : γ → Nat → List UInt8 × γ} {mss size : Nat} {posts : Nat → Bool}

theorem sendLoop_done {allocs : List Bool} {pos : Nat} (done : size ≤ pos) (place : γ)
    (head : List Seg) (posted : List (List Seg)) (allocated : Nat) :
    sendLoop fill mss size posts allocs pos place head posted allocated =
      ⟨posted, [], allocated, some size⟩ := by
  unfold sendLoop
  exact if_pos done

/-- Where an allocation fails, the loop posts the list it has. -/
theorem sendLoop_failed {allocs : List Bool} {pos : Nat} (open_ : pos < size)
    (failed : granted allocs = 0) (place : γ) (head : List Seg) (posted : List (List Seg))
    (allocated : Nat) :
    sendLoop fill mss size posts allocs pos place head posted allocated =
      if head ≠ [] ∧ posts posted.length = false then ⟨posted, head, allocated, none⟩
      else ⟨if head = [] then posted else posted ++ [head], [], allocated,
        if pos = 0 then none else some pos⟩ := by
  unfold sendLoop
  grind [granted]

theorem bytesOf_append (front back : List Seg) :
    bytesOf (front ++ back) = bytesOf front ++ bytesOf back := by
  simp [bytesOf]

theorem filled_concat {posted : List (List Seg)} {head : List Seg} (some_ : head ≠ [])
    (filled : ∀ batch ∈ posted, bytesOf batch ≠ []) (whole : ∀ seg ∈ head, seg.payload ≠ []) :
    ∀ batch ∈ posted ++ [head], bytesOf batch ≠ [] := by
  intro batch mem
  rcases List.mem_append.mp mem with old | new
  · exact filled batch old
  · obtain ⟨seg, rest, rfl⟩ := List.exists_cons_of_ne_nil some_
    simp [List.mem_singleton.mp new, bytesOf, whole seg (by simp)]

/-- A post fails: nothing more is posted, and the list goes to be freed. -/
theorem Posts.stop {posted : List (List Seg)} {before : List UInt8} {todo : List (List UInt8)}
    {head n : Nat} {freed : List Seg} {allocated : Nat} (fails : posts posted.length = false)
    (more : 0 < head + n) (filled : ∀ batch ∈ posted, bytesOf batch ≠ [])
    (ids : (posted.flatten ++ freed).map Seg.id = List.range allocated) :
    Posts posts posted before todo head n ⟨posted, freed, allocated, none⟩ posted.length where
  least := le_rfl
  most := by omega
  passed := by omega
  stopped := fun _ => ⟨fails, rfl⟩
  count := rfl
  filled := filled
  ids := ids
  all := by omega

/-- The list is posted, or empty, and no segment follows. -/
theorem Posts.finish {posted batches : List (List Seg)} {before : List UInt8}
    {todo : List (List UInt8)} {head allocated : Nat} {ret : Option Nat} (few : head < 5)
    (count : batches.length = posted.length + if head = 0 then 0 else 1)
    (passes : head ≠ 0 → posts posted.length = true)
    (bytes : bytesOf batches.flatten = before) (filled : ∀ batch ∈ batches, bytesOf batch ≠ [])
    (ids : batches.flatten.map Seg.id = List.range allocated)
    (reported : ret = if before = [] ∧ todo ≠ [] then none else some before.length) :
    Posts posts posted before todo head 0 ⟨batches, [], allocated, ret⟩ batches.length where
  least := by omega
  most := by split at count <;> omega
  passed := by grind
  stopped := by split at count <;> omega
  count := rfl
  filled := filled
  ids := by simpa using ids
  all := by
    intro _
    simpa using ⟨bytes, reported⟩

/-- One message more is posted before the rest. -/
theorem Posts.next {posted : List (List Seg)} {batch : List Seg} {before bytes : List UInt8}
    {todo : List (List UInt8)} {seg : List UInt8} {head n : Nat} {sent : Sent} {k : Nat}
    (passes : posts posted.length = true)
    (rest : Posts posts (posted ++ [batch]) bytes todo 0 n sent k) (same : bytes = before ++ seg)
    (whole : seg ≠ []) (full : head = 4 ∨ n = 0 ∧ head < 5) :
    Posts posts posted before (seg :: todo) head (n + 1) sent k := by
  have later : posted.length + (head + (n + 1) + 4) / 5 =
      (posted ++ [batch]).length + (0 + n + 4) / 5 := by
    rw [List.length_append, List.length_singleton]
    omega
  have least := rest.least
  rw [List.length_append, List.length_singleton] at least
  exact {
    least := by omega
    most := later ▸ rest.most
    passed := by grind [rest.passed]
    stopped := later ▸ rest.stopped
    count := rest.count
    filled := rest.filled
    ids := rest.ids
    all := by
      intro last
      have all := rest.all (later ▸ last)
      simpa [same, whole, List.append_assoc] using all }

theorem Posts.join {posted : List (List Seg)} {before bytes seg : List UInt8}
    {todo : List (List UInt8)} {head n : Nat} {sent : Sent} {k : Nat}
    (rest : Posts posts posted bytes todo (head + 1) n sent k) (same : bytes = before ++ seg)
    (whole : seg ≠ []) : Posts posts posted before (seg :: todo) head (n + 1) sent k := by
  have later : head + (n + 1) = head + 1 + n := by omega
  exact {
    least := rest.least
    most := later ▸ rest.most
    passed := rest.passed
    stopped := later ▸ rest.stopped
    count := rest.count
    filled := rest.filled
    ids := rest.ids
    all := by
      intro last
      have all := rest.all (later ▸ last)
      simpa [same, whole, List.append_assoc] using all }

variable {pos : Nat} {place : γ} {head : List Seg} {posted : List (List Seg)} {allocated : Nat}
  {todo : List (List UInt8)}

/-- Where the next allocation fails, or no segment is left, the list is posted or freed. -/
theorem sendLoop_ends {allocs : List Bool} (out : min (granted allocs) todo.length = 0)
    (at_pos : (bytesOf (posted.flatten ++ head)).length = pos)
    (left : pos + todo.flatten.length = size) (few : head.length < 5)
    (none_left : todo = [] → head = []) (segs : ∀ seg ∈ todo, seg ≠ [])
    (filled : ∀ batch ∈ posted, bytesOf batch ≠ []) (whole : ∀ seg ∈ head, seg.payload ≠ [])
    (ids : (posted.flatten ++ head).map Seg.id = List.range allocated) :
    ∃ k, Posts posts posted (bytesOf (posted.flatten ++ head)) todo head.length 0
      (sendLoop fill mss size posts allocs pos place head posted allocated) k := by
  rcases todo with _ | ⟨seg, todo⟩
  · obtain rfl := none_left rfl
    rw [sendLoop_done (by simpa using left.ge)]
    refine ⟨_, Posts.finish few (by simp) (by simp) (by simp) filled (by simpa using ids) ?_⟩
    rw [List.append_nil] at at_pos ⊢
    simpa [at_pos] using left.symm
  · have nonempty := List.length_pos_iff.mpr (segs seg (by simp))
    have open_ : pos < size := by
      simp only [List.flatten_cons, List.length_append] at left
      omega
    have failed : granted allocs = 0 := by
      simp only [List.length_cons] at out
      omega
    have reported : (if pos = 0 then none else some pos) =
        if bytesOf (posted.flatten ++ head) = [] ∧ seg :: todo ≠ [] then none
        else some (bytesOf (posted.flatten ++ head)).length := by
      simp [← at_pos]
    rw [sendLoop_failed open_ failed]
    by_cases fails : head ≠ [] ∧ posts posted.length = false
    · rw [if_pos fails]
      exact ⟨_, Posts.stop fails.2 (by simpa using List.length_pos_iff.mpr fails.1) filled ids⟩
    · rw [if_neg fails]
      rcases eq_or_ne head [] with rfl | some_
      · exact ⟨_, Posts.finish few (by simp) (by simp) (by simp) filled
          (by simpa using ids) reported⟩
      · rw [if_neg some_]
        exact ⟨_, Posts.finish few (by simp [some_]) (by simpa [some_] using fails)
          (by simp) (filled_concat some_ filled whole) (by simpa using ids) reported⟩

theorem Follows.nonempty (follows : Follows fill mss todo place) : ∀ seg ∈ todo, seg ≠ [] := by
  induction todo generalizing place with
  | nil => simp
  | cons seg todo continued =>
    rw [List.forall_mem_cons]
    exact ⟨follows.1, continued follows.2.2⟩

/-- The loop posts the segments it has pbufs for, five at a time, until a post fails. -/
theorem sendLoop_posts (allocs : List Bool) (follows : Follows fill mss todo place)
    (at_pos : (bytesOf (posted.flatten ++ head)).length = pos)
    (left : pos + todo.flatten.length = size) (few : head.length < 5)
    (none_left : todo = [] → head = []) (filled : ∀ batch ∈ posted, bytesOf batch ≠ [])
    (whole : ∀ seg ∈ head, seg.payload ≠ [])
    (ids : (posted.flatten ++ head).map Seg.id = List.range allocated) :
    ∃ k, Posts posts posted (bytesOf (posted.flatten ++ head)) todo head.length
      (min (granted allocs) todo.length)
      (sendLoop fill mss size posts allocs pos place head posted allocated) k := by
  induction allocs generalizing pos place head posted allocated todo with
  | nil =>
    rw [granted, Nat.zero_min]
    · exact sendLoop_ends (by simp [granted]) at_pos left few none_left follows.nonempty filled
        whole ids
    · simp
  | cons one allocs continued =>
    by_cases out : min (granted (one :: allocs)) todo.length = 0
    · rw [out]
      exact sendLoop_ends out at_pos left few none_left follows.nonempty filled whole ids
    · cases one with
      | false => simp [granted] at out
      | true =>
      rcases todo with _ | ⟨seg, todo⟩
      · simp at out
      obtain ⟨some_, copied, further⟩ := follows
      have nonempty := List.length_pos_iff.mpr some_
      simp only [List.flatten_cons, List.length_append] at left
      unfold sendLoop
      rw [if_neg (by omega)]
      have room : size - pos = (seg :: todo).flatten.length := by
        simp only [List.flatten_cons, List.length_append]
        omega
      simp only [room, copied]
      have bytes : bytesOf (posted.flatten ++ (head ++ [Seg.mk allocated seg])) =
          bytesOf (posted.flatten ++ head) ++ seg := by
        simp [bytesOf]
      have at_next : (bytesOf (posted.flatten ++ (head ++ [Seg.mk allocated seg]))).length =
          pos + seg.length := by
        rw [bytes, List.length_append, at_pos]
      have next_ids : (posted.flatten ++ (head ++ [Seg.mk allocated seg])).map Seg.id =
          List.range (allocated + 1) := by
        rw [← List.append_assoc, List.map_append, ids, List.range_succ]
        rfl
      have next_whole : ∀ s ∈ head ++ [Seg.mk allocated seg], s.payload ≠ [] := by grind
      have steps : min (granted (true :: allocs)) (seg :: todo).length =
          min (granted allocs) todo.length + 1 := by
        rw [granted, List.length_cons, Nat.succ_min_succ]
      rw [steps]
      split
      · rename_i full
        split
        · rename_i fails
          exact ⟨_, Posts.stop fails (by omega) filled next_ids⟩
        · rename_i passes
          have joined : (posted ++ [head ++ [Seg.mk allocated seg]]).flatten ++ [] =
              posted.flatten ++ (head ++ [Seg.mk allocated seg]) := by
            rw [List.append_nil, List.flatten_concat]
          rw [← joined] at at_next next_ids bytes
          obtain ⟨k, rest⟩ := continued further at_next (by omega) (by simp) (fun _ => rfl)
            (filled_concat (by simp) filled next_whole) (by simp) next_ids
          refine ⟨k, Posts.next (by simpa using passes) rest bytes some_ ?_⟩
          simp only [maxSegPerMsg, List.length_append, List.length_singleton] at full
          rcases full with five | all
          · exact .inl (by omega)
          · have last : todo = [] := by
              rcases todo with _ | ⟨seg', todo⟩
              · rfl
              · have := List.length_pos_iff.mpr (further.1)
                simp only [List.flatten_cons, List.length_append] at left
                omega
            exact .inr ⟨by simp [last], few⟩
      · rename_i short
        simp only [maxSegPerMsg, List.length_append, List.length_singleton, not_or, not_le] at short
        obtain ⟨k, rest⟩ := continued further at_next (by omega)
          (by simpa using short.1) (by rintro rfl; simp at left; omega) filled next_whole next_ids
        exact ⟨k, Posts.join (by simpa using rest) bytes some_⟩

/-! ## Reading the data -/

/-- The segments of at most `mss` bytes of some data. -/
def segments (mss : Nat) : Nat → List UInt8 → List (List UInt8)
  | 0, _ => []
  | fuel + 1, data => if data = [] then [] else data.take mss :: segments mss fuel (data.drop mss)

theorem segments_flatten (positive : 1 ≤ mss) {fuel : Nat} {data : List UInt8}
    (enough : data.length ≤ fuel) : (segments mss fuel data).flatten = data := by
  induction fuel generalizing data with
  | zero => simp [segments, List.length_eq_zero_iff.mp (Nat.le_zero.mp enough)]
  | succ fuel shorter =>
    unfold segments
    split
    · simp [*]
    · rw [List.flatten_cons, shorter (by rw [List.length_drop]; omega), List.take_append_drop]

theorem segments_length (positive : 1 ≤ mss) {fuel : Nat} {data : List UInt8}
    (enough : data.length ≤ fuel) :
    (segments mss fuel data).length = (data.length + mss - 1) / mss := by
  induction fuel generalizing data with
  | zero =>
    rw [Nat.le_zero.mp enough, Nat.div_eq_of_lt (by omega)]
    rfl
  | succ fuel shorter =>
    unfold segments
    split
    · rename_i nothing
      rw [nothing, Nat.div_eq_of_lt (by rw [List.length_nil]; omega)]
      rfl
    · rename_i some_
      have nonempty := List.length_pos_iff.mpr some_
      rw [List.length_cons, shorter (by rw [List.length_drop]; omega), List.length_drop,
        show data.length + mss - 1 = data.length - 1 + mss by omega,
        Nat.add_div_right _ (by omega)]
      rcases Nat.lt_or_ge data.length mss with less | more
      · rw [Nat.div_eq_of_lt (by omega), Nat.div_eq_of_lt (by omega)]
      · rw [show data.length - mss + mss - 1 = data.length - 1 by omega]

/-- A fill copies the next bytes of what is left at a place. -/
def Reader (fill : γ → Nat → List UInt8 × γ) (Rest : γ → List UInt8 → Prop) : Prop :=
  ∀ place rest len, Rest place rest → len ≤ rest.length →
    (fill place len).1 = rest.take len ∧ Rest (fill place len).2 (rest.drop len)

/-- A reader's copies are the segments of what is left. -/
theorem Reader.follows {Rest : γ → List UInt8 → Prop} (reader : Reader fill Rest)
    (positive : 1 ≤ mss) {fuel : Nat} {rest : List UInt8} (enough : rest.length ≤ fuel)
    (reads : Rest place rest) : Follows fill mss (segments mss fuel rest) place := by
  induction fuel generalizing place rest with
  | zero => trivial
  | succ fuel shorter =>
    have flatten := segments_flatten positive enough
    unfold segments at flatten ⊢
    split
    · trivial
    · rename_i some_
      rw [if_neg some_] at flatten
      have fewer : (rest.drop mss).length ≤ fuel := by
        have := List.length_pos_iff.mpr some_
        rw [List.length_drop]
        omega
      have read := reader place rest (min rest.length mss) reads (by omega)
      have taken : rest.take (min rest.length mss) = rest.take mss := by
        rw [Nat.min_comm, ← List.take_eq_take_min]
      have dropped : rest.drop (min rest.length mss) = rest.drop mss := by
        rw [Nat.min_comm, ← List.drop_eq_drop_min]
      rw [taken, dropped] at read
      refine ⟨?_, ?_, ?_⟩
      · rw [ne_eq, List.take_eq_nil_iff, not_or]
        exact ⟨by omega, some_⟩
      · rw [flatten]
        exact read.1
      · rw [flatten]
        exact shorter fewer read.2

theorem writeFillBuf_reader (data : List UInt8) :
    Reader (writeFillBuf data) fun pos rest => rest = data.drop pos := by
  rintro pos _ len rfl _
  exact ⟨rfl, List.drop_drop⟩

/-- A position within the entry it is in. -/
def Within (entries : List (List UInt8)) (iovPos : Nat) : Prop :=
  iovPos ≤ (entries.headD []).length

/-- The loop over the entries copies the next bytes, and stops behind them. -/
theorem fillFrom_reads {entries : List (List UInt8)} {iovPos copy : Nat}
    (within : Within entries iovPos) (enough : copy ≤ (entries.flatten.drop iovPos).length) :
    (fillFrom entries iovPos copy).1 = (entries.flatten.drop iovPos).take copy ∧
      Within (entries.drop (fillFrom entries iovPos copy).2.1) (fillFrom entries iovPos copy).2.2 ∧
      ((entries.drop (fillFrom entries iovPos copy).2.1).flatten).drop
        (fillFrom entries iovPos copy).2.2 = (entries.flatten.drop iovPos).drop copy := by
  induction entries generalizing iovPos copy with
  | nil => simp_all [fillFrom]
  | cons entry rest continued =>
    have inside : iovPos ≤ entry.length := within
    have front : (entry :: rest).flatten.drop iovPos = entry.drop iovPos ++ rest.flatten := by
      rw [List.flatten_cons, List.drop_append_of_le_length inside]
    have left := List.length_drop (i := iovPos) (l := entry)
    rw [front, List.length_append] at enough
    rw [front]
    rw [fillFrom]
    by_cases nothing : copy = 0
    · grind
    rw [if_neg nothing]
    simp only [← left]
    rcases Nat.lt_trichotomy (entry.drop iovPos).length copy with less | same | more
    · rw [if_neg (by omega), if_neg (by omega), Nat.min_eq_left (by omega), List.take_length]
      have short : copy - (entry.drop iovPos).length ≤ (rest.flatten.drop 0).length := by
        rw [List.drop_zero]
        omega
      obtain ⟨copied, next, behind⟩ := continued (Nat.zero_le _) short
      grind [List.take_append, List.take_of_length_le, List.drop_append]
    · rw [if_pos same, same, Nat.min_self, ← same, List.take_length]
      exact ⟨by simp, Nat.zero_le _, by simp⟩
    · rw [if_neg (by omega), if_pos more, Nat.min_eq_right (by omega)]
      refine ⟨(List.take_append_of_le_length (by omega)).symm, ?_, ?_⟩
      · show iovPos + copy ≤ entry.length
        omega
      · rw [List.drop_zero, ← List.drop_drop, front]

theorem writevFillBuf_reader (iov : List (List UInt8)) :
    Reader (writevFillBuf iov) fun place rest =>
      Within (iov.drop place.1) place.2 ∧ rest = (iov.drop place.1).flatten.drop place.2 := by
  rintro ⟨var, pos⟩ _ len ⟨within, rfl⟩ enough
  grind [fillFrom_reads, writevFillBuf, List.drop_drop]

theorem sizeOf_total {iov : List (List UInt8)} {size : Nat}
    (small : size + iov.flatten.length < 2 ^ 31) : sizeOf iov size = size + iov.flatten.length := by
  induction iov generalizing size with
  | nil => simp [sizeOf]
  | cons entry rest continued => grind [sizeOf]

/-! ## What a call reports -/

/-- If the first message is posted, every message of the pbufs there are for the data is. -/
def AllPosted (posts : Nat → Bool) (allocs : List Bool) (mss length : Nat) : Prop :=
  posts 0 = true →
    ∀ k < (min (granted allocs) ((length + mss - 1) / mss) + 4) / 5, posts k = true

/-- A run of the loop from its start is exact if it posts no message, or every one. -/
theorem Posts.exact_iff {data : List UInt8} {n fuel : Nat} {sent : Sent} {k : Nat}
    (positive : 1 ≤ mss) (enough : data.length ≤ fuel)
    (run : Posts posts [] [] (segments mss fuel data) 0 n sent k) :
    Exact data sent ↔ (posts 0 = true → ∀ k < (n + 4) / 5, posts k = true) := by
  have most := run.most
  simp only [List.length_nil, Nat.zero_add] at most
  constructor
  · rintro ⟨-, refused, -⟩ first j less
    by_contra fails
    -- the run stops at a message behind the first, which has bytes
    have stops : k < (n + 4) / 5 := by grind [run.passed]
    obtain ⟨failed, minus⟩ := run.stopped (by simpa using stops)
    have count := run.count
    rcases posted : sent.posted with _ | ⟨batch, rest⟩
    · grind
    · grind [bytesOf_append, List.append_eq_nil_iff, run.filled]
  · intro all
    rcases Nat.lt_or_ge k ((n + 4) / 5) with stops | ends
    · obtain ⟨failed, minus⟩ := run.stopped (by simpa using stops)
      have none_posted : k = 0 := by grind [run.passed]
      have posted := List.length_eq_zero_iff.mp (run.count.trans none_posted)
      refine ⟨?_, fun _ => by rw [posted]; rfl, run.ids⟩
      intro r reported
      rw [minus] at reported
      exact absurd reported (by simp)
    · obtain ⟨bytes, reported⟩ := run.all (by simp; omega)
      have front : data = ((segments mss fuel data).take n).flatten ++
          ((segments mss fuel data).drop n).flatten := by
        rw [← List.flatten_append, List.take_append_drop, segments_flatten positive enough]
      rw [List.nil_append] at bytes reported
      refine ⟨?_, ?_, run.ids⟩
      · grind
      · grind

/-- The loop over what a reader copies is exact if it posts no message, or every one. -/
theorem sendLoop_exact_iff {Rest : γ → List UInt8 → Prop} (reader : Reader fill Rest)
    (positive : 1 ≤ mss) {data : List UInt8} (reads : Rest place data) (allocs : List Bool) :
    Exact data (sendLoop fill mss data.length posts allocs 0 place [] [] 0) ↔
      AllPosted posts allocs mss data.length := by
  have left : 0 + (segments mss data.length data).flatten.length = data.length := by
    rw [segments_flatten positive le_rfl, Nat.zero_add]
  have start : (bytesOf (([] : List (List Seg)).flatten ++ [])).length = 0 := rfl
  obtain ⟨k, run⟩ := @sendLoop_posts _ _ _ _ posts _ _ _ _ _ _ allocs
    (reader.follows positive le_rfl reads) start left (by decide) (fun _ => rfl) (by simp) (by simp)
    (List.range_zero).symm
  rw [segments_length positive le_rfl] at run
  exact run.exact_iff positive le_rfl

end Loop

/-- For any data, pbufs and posts, a send call reports what it hands over, exactly if it posts no
message or every one. -/
theorem send_exact_iff (mss : Nat) (positive : 1 ≤ mss) (allocs : List Bool) (posts : Nat → Bool) :
    (∀ data : List UInt8, data.length < 2 ^ 31 →
      (Exact data (sbrTcpWrite data mss allocs posts) ↔
        AllPosted posts allocs mss data.length)) ∧
    ∀ iov : List (List UInt8), iov.flatten.length < 2 ^ 31 →
      (Exact iov.flatten (sbrTcpWritev iov mss allocs posts) ↔
        AllPosted posts allocs mss iov.flatten.length) := by
  constructor
  · intro data _
    have loop : Exact data (sendLoop (writeFillBuf data) mss data.length posts allocs 0 0 [] [] 0) ↔
        AllPosted posts allocs mss data.length :=
      sendLoop_exact_iff (writeFillBuf_reader data) positive
        (List.drop_zero (l := data)).symm allocs
    unfold sbrTcpWrite
    split
    · rename_i empty
      rw [sendLoop_done empty.le, empty] at loop
      rwa [empty]
    · exact loop
  · intro iov small
    unfold sbrTcpWritev
    rw [if_neg (by omega), sizeOf_total (by omega), Nat.zero_add]
    exact sendLoop_exact_iff (writevFillBuf_reader iov) positive ⟨Nat.zero_le _, by simp⟩ allocs

/-- Three bytes of two entries and an empty one, in segments of two, with pbufs for both. -/
theorem send_exact_three :
    Exact [1, 2, 3] (sbrTcpWritev [[1], [], [2, 3]] 2 [true, true] fun _ => true) :=
  ((send_exact_iff 2 (by decide) [true, true] fun _ => true).2 [[1], [], [2, 3]] (by decide)).mpr
    fun _ _ _ => rfl

/-- Six bytes in six segments: five are posted, the message of the last is not, and the call
reports -1. -/
theorem failed_after_post :
    (sbrTcpWrite [1, 2, 3, 4, 5, 6] 1 (List.replicate 6 true) fun k => k == 0).ret = none ∧
      bytesOf (sbrTcpWrite [1, 2, 3, 4, 5, 6] 1 (List.replicate 6 true)
        fun k => k == 0).posted.flatten = [1, 2, 3, 4, 5] ∧
      ¬Exact [1, 2, 3, 4, 5, 6]
        (sbrTcpWrite [1, 2, 3, 4, 5, 6] 1 (List.replicate 6 true) fun k => k == 0) := by
  have run : sbrTcpWrite [1, 2, 3, 4, 5, 6] 1 (List.replicate 6 true) (fun k => k == 0) =
      ⟨[[⟨0, [1]⟩, ⟨1, [2]⟩, ⟨2, [3]⟩, ⟨3, [4]⟩, ⟨4, [5]⟩]], [⟨5, [6]⟩], 6, none⟩ := by
    decide +kernel
  rw [run]
  exact ⟨rfl, rfl, fun exact_ => absurd (exact_.2.1 rfl) (by decide)⟩

end Dmm.Tcp.Send
