import Dmm.Lib.Run
import Dmm.Lib.Word
import Dmm.Netconn.RecvCallback

/-!
# Receiving on a TCP socket

`sbr_tcp_recvfrom` takes chains from the receive ring of a connection until the caller's buffer is
full or nothing more is announced by `rcvevent`. A chain that is not read to its end stays in
`lastdata`, with the position in `lastoffset`; one that is goes back to the stack in a message.
`sbr_tcp_recvdata` does this for the entries of an iovec array.

Chains arrive between any two steps of a call. What the environment does is given for each turn of
the loop: the chains that arrive, and whether taking from the ring fails. A call that still waits
has no result.
-/

namespace Dmm.Tcp.Receive

open Bytes Netconn Word

/-! ## State -/

/-- A `spl_pbuf` on the receive ring. -/
structure Buf where
  id : Nat
  payload : List UInt8
  /-- The mbufs linked from its mbuf, itself included. -/
  mbufs : Nat
  deriving DecidableEq, Repr

/-- A chain of `spl_pbuf`s on the receive ring. -/
structure Chain where
  bufs : List Buf
  filled : bufs.flatMap Buf.payload ≠ []
  distinct : (bufs.map Buf.id).Nodup
  short : (bufs.flatMap Buf.payload).length < 2 ^ 32
  deriving DecidableEq, Repr

/-- All bytes of a chain. -/
def Chain.bytes (c : Chain) : List UInt8 := c.bufs.flatMap Buf.payload

/-- `tot_len` -/
def Chain.totLen (c : Chain) : Nat := c.bytes.length

theorem Chain.totLen_pos (c : Chain) : 0 < c.totLen := List.length_pos_iff.mpr c.filled

theorem Chain.totLen_lt (c : Chain) : c.totLen < 2 ^ 32 := c.short

/-- `sbr_tcp_mbuf_count`, 16 bits wide. -/
def mbufCount (bufs : List Buf) : Nat := (bufs.map Buf.mbufs).sum % 2 ^ 16

/-- `msg_recv_buf` in an `SPL_API_DO_RECV` message. -/
structure DoRecv where
  len : Nat
  p : Option Nat
  deriving DecidableEq, Repr

/-- A socket: its receive ring, `rcvevent`, `lastdata` and `lastoffset`, the messages posted, all
chains taken from the ring and all that were put on it, oldest first. -/
structure Sock where
  ring : List Chain
  rcvevent : Int
  lastdata : Option Chain
  lastoffset : Nat
  messages : List DoRecv
  taken : List Chain
  put : List Chain
  deriving DecidableEq, Repr

/-- Nothing has been received. -/
def Sock.empty : Sock := ⟨[], 0, none, 0, [], [], []⟩

/-- `spl_recv_tcp` puts chains on the ring. -/
def Sock.arrive (s : Sock) (chains : List Chain) : Sock :=
  { s with
    ring := s.ring ++ chains
    rcvevent := s.rcvevent + chains.length
    put := s.put ++ chains }

/-- The message about the spl_pbufs linked from a pointer. -/
def doRecv (bufs : List Buf) : DoRecv := ⟨mbufCount bufs, bufs.head?.map Buf.id⟩

/-- `sbr_tcp_free_recvbuf`, with the no-auto-recved flag set. -/
def Sock.freeRecvbuf (s : Sock) (bufs : List Buf) : Sock :=
  { s with messages := s.messages ++ [doRecv bufs] }

/-- `sbr_tcp_recv_no_peak` -/
def Sock.recvNoPeak (s : Sock) (c : Chain) (buflen copylen : Nat) : Sock :=
  if 0 < buflen - copylen then
    { s with lastdata := some c, lastoffset := s.lastoffset + copylen }
  else { s with lastdata := none, lastoffset := 0 }.freeRecvbuf c.bufs

/-- `sbr_tcp_close`: `lastdata` is taken for a `spl_netbuf`, whose first field `p` is where an
`spl_pbuf` has `next`. -/
def Sock.close (s : Sock) : Sock :=
  match s.lastdata with
  | none => s
  | some c => s.freeRecvbuf c.bufs.tail

/-! ## Calls -/

/-- What happens during a turn of the loop. -/
structure Turn where
  /-- Chains that arrive before `rcvevent` is looked at. -/
  before : List Chain
  /-- Chains that arrive before the ring is looked at. -/
  waiting : List Chain
  /-- `sbr_tcp_recv_from_ring` fails, with `ENOTCONN` or another error. -/
  fails : Option Bool
  /-- Chains that arrive before `rcvevent` is looked at again. -/
  after : List Chain
  deriving DecidableEq, Repr

/-- The arguments of `sbr_tcp_recvfrom` apart from the buffer. -/
structure Args where
  len : Nat
  peek : Bool
  dontwait : Bool
  /-- `*fromlen`, when `from` and `fromlen` are set. -/
  fromlen : Option Nat
  deriving DecidableEq, Repr

/-- `sbr_tcp_get_sockaddr`: the length is cut to `sizeof (struct sockaddr)` before the copy. -/
def getSockaddr : Option Nat → Int
  | none => 0
  | some addrlen => if min addrlen 16 ≤ 16 then 0 else -1

@[simp] theorem getSockaddr_eq (fromlen : Option Nat) : getSockaddr fromlen = 0 := by
  cases fromlen <;> simp [getSockaddr]

/-- What comes of looking for a chain. -/
inductive Found
  | ret (value : Int) (s : Sock)
  | waits
  | chain (c : Chain) (s : Sock)

/-- The first part of a turn: `lastdata`, or the next chain of the ring. -/
def find (args : Args) (t : Turn) (s : Sock) (off : Nat) : Found :=
  match s.lastdata with
  | some c => .chain c s
  | none =>
    let s := s.arrive t.before
    if args.dontwait ∧ s.rcvevent ≤ 0 then .ret (-1) s
    else
      let s := s.arrive t.waiting
      match t.fails, s.ring with
      | some notconn, _ => .ret (if 0 < off then int32 off else if notconn then 0 else -1) s
      | none, [] => .waits
      | none, c :: ring =>
        .chain c { s with
          ring, rcvevent := s.rcvevent - 1, lastdata := some c, taken := s.taken ++ [c] }

/-- The loop of `sbr_tcp_recvfrom` for a buffer at `base`: the result, the caller's memory and the
socket afterwards. `rcvlowat` is 1, and `off` is a `u32`. -/
def loop (args : Args) (base : Nat) :
    List Turn → Sock → (off len : Nat) → Memory → Option (Int × Memory × Sock)
  | [], _, _, _, _ => none
  | t :: turns, s, off, len, mem =>
    match find args t s off with
    | .ret value s => some (value, mem, s)
    | .waits => none
    | .chain c s =>
      let buflen := c.totLen - s.lastoffset
      let copylen := min len buflen
      let bytes := splPbufCopyPartial (c.bufs.map Buf.payload) copylen s.lastoffset
      if 0 < copylen ∧ bytes = [] then some (-1, mem, s)
      else
        let mem := store mem (base + off) bytes
        let off : Nat := (off + copylen) % 2 ^ 32
        let s := s.arrive t.after
        let done := (len - copylen = 0 ∨ s.rcvevent ≤ 0 ∨ args.peek) ∧
          (1 ≤ off ∨ int32 args.len ≤ 1)
        if done ∧ getSockaddr args.fromlen ≠ 0 then some (-1, mem, s)
        else
          let s := if args.peek then s else s.recvNoPeak c buflen copylen
          if done then some (int32 off, mem, s)
          else loop args base turns s off (len - copylen) mem

/-- What happens during a call: whether `sbr_tcp_recv_state_check` passes, and the turns. -/
structure Env where
  state : Bool
  turns : List Turn
  deriving DecidableEq, Repr

/-- `sbr_tcp_recvfrom` -/
def recvfrom (args : Args) (env : Env) (base : Nat) (s : Sock) (mem : Memory) :
    Option (Int × Memory × Sock) :=
  if env.state = false then some (-1, mem, s) else loop args base env.turns s 0 args.len mem

/-- An entry of an iovec array. The entries' buffers lie one behind the other in the caller's
memory. -/
structure Iovec where
  base : Bool
  len : Nat
  deriving DecidableEq, Repr

/-- One entry of `sbr_tcp_recvdata`: the result, the memory, the socket and what is left of the
environment. -/
def readEntry (nonblock : Bool) (entry : Iovec) (envs : List Env) (base : Nat) (s : Sock)
    (mem : Memory) : Option (Int × Memory × Sock × List Env) :=
  if entry.base = false ∨ entry.len = 0 then some (0, mem, s, envs)
  else match envs with
    | [] => none
    | env :: envs => (recvfrom ⟨entry.len, false, nonblock, none⟩ env base s mem).map
      fun (ret, mem, s) => (ret, mem, s, envs)

/-- What `sbr_tcp_recvdata` returns after `len` bytes and a last result. -/
def total (len ret : Int) : Int :=
  if len = 0 then ret else if ret = -1 then len else int32 (len + ret)

/-- The loop of `sbr_tcp_recvdata` from an entry on, with what it has got so far. -/
def recvdataGo (nonblock : Bool) :
    Iovec → List Iovec → List Env → (base : Nat) → (len : Int) → Sock → Memory →
      Option (Int × Memory × Sock)
  | entry, [], envs, base, len, s, mem =>
    (readEntry nonblock entry envs base s mem).map fun (ret, mem, s, _) => (total len ret, mem, s)
  | entry, next :: rest, envs, base, len, s, mem =>
    (readEntry nonblock entry envs base s mem).bind fun (ret, mem, s, envs) =>
      if ret = int32 entry.len ∧ int32 (0x7FFFFFFF - len - ret) > int32 next.len then
        recvdataGo nonblock next rest envs (base + entry.len) (int32 (len + ret)) s mem
      else some (total len ret, mem, s)

/-- `sbr_readv` and `sbr_tcp_readv`: `sbr_check_iov` refuses an empty array and an entry without a
buffer. -/
def readv (nonblock : Bool) (iov : List Iovec) (envs : List Env) (s : Sock) (mem : Memory) :
    Option (Int × Memory × Sock) :=
  match iov with
  | [] => some (-1, mem, s)
  | first :: rest =>
    if ∃ entry ∈ first :: rest, entry.base = false ∧ entry.len ≠ 0 then some (-1, mem, s)
    else recvdataGo nonblock first rest envs 0 0 s mem

/-- A receive call. -/
inductive Call
  | recvfrom (args : Args) (env : Env)
  | readv (nonblock : Bool) (iov : List Iovec) (envs : List Env)
  /-- `sbr_tcp_recvmsg`, with `msg_namelen` when `msg_name` is set. -/
  | recvmsg (nonblock : Bool) (namelen : Option Nat) (iov : List Iovec) (envs : List Env)
  deriving DecidableEq, Repr

/-- A call on a socket, with the caller's memory. -/
def Call.run (s : Sock) (mem : Memory) : Call → Option (Int × Memory × Sock)
  | .recvfrom args env => Receive.recvfrom args env 0 s mem
  | .readv nonblock iov envs => Receive.readv nonblock iov envs s mem
  | .recvmsg nonblock namelen iov envs =>
    if getSockaddr namelen ≠ 0 then some (-1, mem, s) else Receive.readv nonblock iov envs s mem

/-- The size of the caller's buffers. -/
def Call.size : Call → Nat
  | .recvfrom args _ => args.len
  | .readv _ iov _ | .recvmsg _ _ iov _ => (iov.map Iovec.len).sum

/-- `MSG_PEEK` -/
def Call.peek : Call → Bool
  | .recvfrom args _ => args.peek
  | .readv .. | .recvmsg .. => false

/-- Every length is less than 2^31. -/
def Call.Short : Call → Prop
  | .recvfrom args _ => args.len < 2 ^ 31
  | .readv _ iov _ | .recvmsg _ _ iov _ => ∀ entry ∈ iov, entry.len < 2 ^ 31

/-- The bytes a caller sees. -/
def returned (ret : Int) (mem : Memory) : List UInt8 := (List.range ret.toNat).map mem

/-! ## What is pending -/

/-- The bytes of some chains. -/
def bytesOf (chains : List Chain) : List UInt8 := chains.flatMap Chain.bytes

/-- The bytes that have not been read. -/
def Sock.pending (s : Sock) : List UInt8 :=
  (match s.lastdata with
    | none => []
    | some c => c.bytes.drop s.lastoffset) ++ bytesOf s.ring

/-- `lastoffset` is in `lastdata`, and each chain taken was handed back or is `lastdata`. -/
structure Sock.Ok (s : Sock) : Prop where
  offset : match s.lastdata with
    | none => s.lastoffset = 0
    | some c => s.lastoffset < c.totLen
  handed : ∃ handed, s.taken = handed ++ s.lastdata.toList ∧
    s.messages = handed.map fun c => doRecv c.bufs
  queue : s.put = s.taken ++ s.ring

/-- Bytes go from the pending ones to the caller while chains arrive. -/
def Passes (s s' : Sock) (out : List UInt8) : Prop :=
  ∃ chains, s'.put = s.put ++ chains ∧ s.pending ++ bytesOf chains = out ++ s'.pending

theorem Passes.trans {s₁ s₂ s₃ : Sock} {out out' : List UInt8} (first : Passes s₁ s₂ out)
    (second : Passes s₂ s₃ out') : Passes s₁ s₃ (out ++ out') := by
  obtain ⟨chains, put, bytes⟩ := first
  obtain ⟨chains', put', bytes'⟩ := second
  refine ⟨chains ++ chains', ?_, ?_⟩
  · rw [put', put, List.append_assoc]
  · grind [bytesOf]

theorem passes_arrive (s : Sock) (chains : List Chain) : Passes s (s.arrive chains) [] :=
  ⟨chains, rfl, by simp [Sock.pending, Sock.arrive, bytesOf]⟩

theorem Passes.refl (s : Sock) : Passes s s [] := ⟨[], by simp, by simp [bytesOf]⟩

theorem Sock.Ok.arrive {s : Sock} (ok : s.Ok) (chains : List Chain) : (s.arrive chains).Ok :=
  ⟨ok.offset, ok.handed, by simp [Sock.arrive, ok.queue]⟩

theorem Sock.Ok.empty : Sock.empty.Ok := ⟨rfl, ⟨[], rfl, rfl⟩, rfl⟩

/-- What looking for a chain does. -/
theorem find_spec {args : Args} {t : Turn} {s : Sock} {off : Nat} (ok : s.Ok) :
    match find args t s off with
    | .ret value s' => s'.Ok ∧ Passes s s' [] ∧ (off = 0 → value = -1 ∨ value = 0) ∧
        (0 < off → 0 < s.rcvevent → value = int32 off)
    | .waits => True
    | .chain c s' => s'.Ok ∧ Passes s s' [] ∧ s'.lastdata = some c := by
  unfold find
  cases last : s.lastdata with
  | some c => exact ⟨ok, .refl s, last⟩
  | none =>
    have unread : s.lastoffset = 0 := by simpa [last] using ok.offset
    have before := passes_arrive s t.before
    have waiting := before.trans (passes_arrive _ t.waiting)
    simp only
    by_cases stopped : args.dontwait ∧ (s.arrive t.before).rcvevent ≤ 0
    · grind [ok.arrive, Sock.arrive]
    · rw [if_neg stopped]
      cases t.fails with
      | some notconn =>
        refine ⟨(ok.arrive _).arrive _, waiting, fun zero => ?_, fun more _ => if_pos more⟩
        cases notconn <;> simp [zero]
      | none =>
        cases here : ((s.arrive t.before).arrive t.waiting).ring with
        | nil => trivial
        | cons c ring =>
          obtain ⟨handed, taken, posted⟩ := ok.handed
          refine ⟨⟨?_, ⟨handed, ?_, posted⟩, ?_⟩, ?_, rfl⟩
          · simpa [Sock.arrive, unread] using c.totLen_pos
          · simp [Sock.arrive, taken, last]
          · rw [((ok.arrive _).arrive _).queue, here, ← List.append_cons]
          · obtain ⟨chains, put, bytes⟩ := waiting
            refine ⟨chains, put, ?_⟩
            grind [Sock.pending, Sock.arrive, bytesOf]

/-- Reading from `lastdata` without `MSG_PEEK`. -/
theorem recvNoPeak_spec {s : Sock} {c : Chain} (ok : s.Ok) (last : s.lastdata = some c)
    (copylen : Nat) :
    (s.recvNoPeak c (c.totLen - s.lastoffset) copylen).Ok ∧
      Passes s (s.recvNoPeak c (c.totLen - s.lastoffset) copylen)
        ((c.bytes.drop s.lastoffset).take copylen) := by
  obtain ⟨handed, taken, posted⟩ := ok.handed
  have inside : s.lastoffset < c.totLen := by simpa [last] using ok.offset
  rw [Sock.recvNoPeak]
  split_ifs with rest
  · refine ⟨⟨?_, ⟨handed, ?_, posted⟩, ok.queue⟩, [], by simp, ?_⟩
    · simp only
      omega
    · simp [taken, last]
    · grind [Sock.pending, List.drop_drop, List.take_append_drop, bytesOf]
  · refine ⟨⟨rfl, ⟨handed ++ [c], ?_, ?_⟩, ok.queue⟩, [], by simp [Sock.freeRecvbuf], ?_⟩
    · simp [Sock.freeRecvbuf, taken, last]
    · simp [Sock.freeRecvbuf, posted]
    · grind [Chain.totLen, List.take_of_length_le, Sock.pending, Sock.freeRecvbuf, bytesOf]

/-- The loop of `sbr_tcp_recvfrom`, for every length. -/
theorem loop_ok {args : Args} {base : Nat} {turns : List Turn} {s s' : Sock} {off len : Nat}
    {mem mem' : Memory} {ret : Int} (ok : s.Ok)
    (done : loop args base turns s off len mem = some (ret, mem', s')) : s'.Ok := by
  induction turns generalizing s off len mem with
  | nil => simp [loop] at done
  | cons t turns ih =>
    have found := @find_spec args t s off ok
    rw [loop] at done
    cases here : find args t s off with
    | ret value after => grind
    | waits => simp [here] at done
    | chain c after =>
      simp only [here, getSockaddr_eq, ne_eq, not_true_eq_false, and_false, if_false] at found done
      obtain ⟨kept, -, last⟩ := found
      have read := (recvNoPeak_spec (kept.arrive t.after) (c := c) last
        (min len (c.totLen - after.lastoffset))).1
      split_ifs at done
      · rw [← (Prod.mk.inj (Prod.mk.inj (Option.some.inj done)).2).2]
        exact kept
      · grind [kept.arrive]
      · rw [← (Prod.mk.inj (Prod.mk.inj (Option.some.inj done)).2).2]
        exact read
      · exact ih (kept.arrive _) done
      · exact ih read done

theorem recvfrom_ok {args : Args} {env : Env} {base : Nat} {s s' : Sock} {mem mem' : Memory}
    {ret : Int} (ok : s.Ok) (done : recvfrom args env base s mem = some (ret, mem', s')) :
    s'.Ok := by grind [recvfrom, loop_ok]

theorem readEntry_ok {nonblock : Bool} {entry : Iovec} {envs left : List Env} {base : Nat}
    {s s' : Sock} {mem mem' : Memory} {ret : Int} (ok : s.Ok)
    (done : readEntry nonblock entry envs base s mem = some (ret, mem', s', left)) : s'.Ok := by
  unfold readEntry at done
  split_ifs at done
  · simp only [Option.some.injEq, Prod.mk.injEq] at done
    rw [← done.2.2.1]
    exact ok
  · cases envs with
    | nil => contradiction
    | cons env envs =>
      obtain ⟨result, returns, same⟩ := Option.map_eq_some_iff.mp done
      grind [recvfrom_ok]

theorem recvdataGo_ok {nonblock : Bool} {entry : Iovec} {rest : List Iovec} {envs : List Env}
    {base : Nat} {len : Int} {s s' : Sock} {mem mem' : Memory} {ret : Int} (ok : s.Ok)
    (done : recvdataGo nonblock entry rest envs base len s mem = some (ret, mem', s')) :
    s'.Ok := by
  induction rest generalizing entry envs base len s mem with
  | nil =>
    obtain ⟨result, read, same⟩ := Option.map_eq_some_iff.mp done
    simp only [Prod.mk.injEq] at same
    rw [← same.2.2]
    exact readEntry_ok ok read
  | cons next rest ih =>
    obtain ⟨result, read, goes⟩ := Option.bind_eq_some_iff.mp done
    grind [readEntry_ok]

theorem readv_ok {nonblock : Bool} {iov : List Iovec} {envs : List Env} {s s' : Sock}
    {mem mem' : Memory} {ret : Int} (ok : s.Ok)
    (done : readv nonblock iov envs s mem = some (ret, mem', s')) : s'.Ok := by
  cases iov with
  | nil =>
    rw [← (Prod.mk.inj (Prod.mk.inj (Option.some.inj done)).2).2]
    exact ok
  | cons first rest =>
    rw [readv] at done
    split_ifs at done
    · rw [← (Prod.mk.inj (Prod.mk.inj (Option.some.inj done)).2).2]
      exact ok
    · exact recvdataGo_ok ok done

theorem Call.run_ok {call : Call} {s s' : Sock} {mem mem' : Memory} {ret : Int} (ok : s.Ok)
    (done : call.run s mem = some (ret, mem', s')) : s'.Ok := by
  cases call with
  | recvfrom args env => exact recvfrom_ok ok done
  | readv nonblock iov envs => exact readv_ok ok done
  | recvmsg nonblock namelen iov envs =>
    rw [run, getSockaddr_eq, if_neg (by decide)] at done
    exact readv_ok ok done

/-- What a call that has stored `off` bytes may still do: it stores the next ones of those pending,
and returns how many it has stored in all. -/
structure Got (peek : Bool) (s : Sock) (mem : Memory) (base off len : Nat) (ret : Int)
    (mem' : Memory) (s' : Sock) (out : List UInt8) : Prop where
  stored : mem' = store mem (base + off) out
  room : out.length ≤ len
  passes : if peek then Passes s s' [] ∧ out <+: s'.pending else Passes s s' out
  result : ret = off + out.length ∨ off = 0 ∧ out = [] ∧ (ret = -1 ∨ ret = 0)

theorem Got.nothing {peek : Bool} {s s' : Sock} {mem : Memory} {base off len : Nat} {ret : Int}
    (passes : Passes s s' [])
    (result : ret = off ∨ off = 0 ∧ (ret = -1 ∨ ret = 0)) :
    Got peek s mem base off len ret mem s' [] := by constructor <;> grind [store_outside]

theorem int32_natCast {n : Nat} (small : n < 2 ^ 31) : int32 (n : Int) = n :=
  int32_of_range (by omega) (by omega)

/-- What the loop of `sbr_tcp_recvfrom` does. -/
theorem loop_got {args : Args} {base : Nat} (short : args.len < 2 ^ 31) {turns : List Turn}
    {s : Sock} {off len : Nat} {mem : Memory} {ret : Int} {mem' : Memory} {s' : Sock} (ok : s.Ok)
    (sum : off + len = args.len) (more : off = 0 ∨ 0 < s.rcvevent)
    (done : loop args base turns s off len mem = some (ret, mem', s')) :
    ∃ out, Got args.peek s mem base off len ret mem' s' out := by
  induction turns generalizing s off len mem with
  | nil => simp [loop] at done
  | cons t turns ih =>
    have found := @find_spec args t s off ok
    rw [loop] at done
    cases here : find args t s off with
    | ret value after =>
      simp only [here, Option.some.injEq, Prod.mk.injEq] at found done
      obtain ⟨rfl, rfl, rfl⟩ := done
      obtain ⟨kept, passes, first, later⟩ := found
      refine ⟨[], .nothing passes ?_⟩
      grind [int32_natCast]
    | waits => simp [here] at done
    | chain c after =>
      simp only [here] at found done
      obtain ⟨kept, passes, last⟩ := found
      have inside : after.lastoffset < c.totLen := by simpa [last] using kept.offset
      set copylen := min len (c.totLen - after.lastoffset) with copied
      have bytes : splPbufCopyPartial (c.bufs.map Buf.payload) copylen after.lastoffset =
          (c.bytes.drop after.lastoffset).take copylen := by
        rw [splPbufCopyPartial_eq, Chain.bytes, List.flatMap_def]
      set out := (c.bytes.drop after.lastoffset).take copylen with taken
      have length : out.length = copylen := by
        rw [taken, List.length_take, List.length_drop, ← Chain.totLen]
        omega
      rw [bytes] at done
      have copies : ¬ (0 < copylen ∧ out = []) := by
        rintro ⟨some, empty⟩
        simp [empty] at length
        omega
      rw [if_neg copies, Nat.mod_eq_of_lt (by omega)] at done
      simp only [getSockaddr_eq, ne_eq, not_true_eq_false, and_false, if_false] at done
      have arrived := passes.trans (passes_arrive after t.after)
      have kept' := kept.arrive t.after
      have read := recvNoPeak_spec kept' (c := c) last copylen
      have passed : Passes s _ ([] ++ [] ++ out) := arrived.trans read.2
      by_cases last' : (len - copylen = 0 ∨ (after.arrive t.after).rcvevent ≤ 0 ∨ args.peek) ∧
          (1 ≤ off + copylen ∨ int32 args.len ≤ 1)
      · rw [if_pos last', int32_natCast (by omega)] at done
        simp only [Option.some.injEq, Prod.mk.injEq] at done
        obtain ⟨rfl, rfl, rfl⟩ := done
        refine ⟨out, rfl, by omega, ?_, .inl (by omega)⟩
        · split_ifs
          · refine ⟨by simpa using arrived, ?_⟩
            simp only [Sock.pending, Sock.arrive]
            grind
          · exact passed
      · rw [if_neg last'] at done
        have zero : int32 0 ≤ 1 := by decide
        have goes : 0 < copylen ∧ args.peek = false ∧ 0 < (after.arrive t.after).rcvevent := by
          by_cases none : len = 0
          · refine absurd ⟨.inl (by omega), ?_⟩ last'
            rcases Nat.eq_zero_or_pos off with first | later
            · exact .inr (by rw [show args.len = 0 by omega]; exact zero)
            · exact .inl (by omega)
          · have some : 0 < copylen := by omega
            grind
        obtain ⟨some, reads, announced⟩ := goes
        rw [reads, if_neg (by simp)] at done
        have still : 0 < ((after.arrive t.after).recvNoPeak c (c.totLen - after.lastoffset)
            copylen).rcvevent := by
          rw [Sock.recvNoPeak]
          split_ifs <;> exact announced
        obtain ⟨rest, got⟩ := ih read.1 (by omega) (.inr still) done
        have room := got.room
        have later := got.passes
        simp only [reads] at later
        refine ⟨out ++ rest, ?_, ?_, ?_, ?_⟩
        · rw [got.stored, ← Nat.add_assoc, ← length, store_append]
        · rw [List.length_append]
          omega
        · simp only [reads]
          exact passed.trans later
        · grind [got.result]

theorem recvfrom_got {args : Args} {env : Env} {base : Nat} {s s' : Sock} {mem mem' : Memory}
    {ret : Int} (ok : s.Ok) (short : args.len < 2 ^ 31)
    (done : recvfrom args env base s mem = some (ret, mem', s')) :
    ∃ out, Got args.peek s mem base 0 args.len ret mem' s' out := by
  rw [recvfrom] at done
  split_ifs at done with refused
  · simp only [Option.some.injEq, Prod.mk.injEq] at done
    obtain ⟨rfl, rfl, rfl⟩ := done
    exact ⟨[], .nothing (.refl s) (.inr ⟨rfl, .inl rfl⟩)⟩
  · exact loop_got short ok (Nat.zero_add _) (.inl rfl) done

theorem readEntry_got {nonblock : Bool} {entry : Iovec} {envs left : List Env} {base : Nat}
    {s s' : Sock} {mem mem' : Memory} {ret : Int} (ok : s.Ok) (short : entry.len < 2 ^ 31)
    (done : readEntry nonblock entry envs base s mem = some (ret, mem', s', left)) :
    ∃ out, Got false s mem base 0 entry.len ret mem' s' out := by
  unfold readEntry at done
  split_ifs at done with skipped
  · simp only [Option.some.injEq, Prod.mk.injEq] at done
    obtain ⟨rfl, rfl, rfl, -⟩ := done
    exact ⟨[], .nothing (.refl s) (.inl rfl)⟩
  · cases envs with
    | nil => contradiction
    | cons env envs =>
      obtain ⟨⟨ret', mem'', s''⟩, returns, same⟩ := Option.map_eq_some_iff.mp done
      simp only [Prod.mk.injEq] at same
      obtain ⟨rfl, rfl, rfl, -⟩ := same
      exact @recvfrom_got ⟨entry.len, false, nonblock, none⟩ _ _ _ _ _ _ _ ok short returns

/-- A result of one entry after `base` bytes is a result for all of them. -/
theorem Got.total {s s' : Sock} {mem mem' : Memory} {base len more : Nat} {ret : Int}
    {out : List UInt8} (got : Got false s mem base 0 len ret mem' s' out)
    (short : base + len < 2 ^ 31) : Got false s mem 0 base (len + more) (total base ret) mem' s'
      out := by constructor <;> grind [Receive.total, int32_of_range, Got]

/-- What `sbr_tcp_recvdata` does from an entry on, when the entries before are full. -/
theorem recvdataGo_got {nonblock : Bool} {entry : Iovec} {rest : List Iovec} {envs : List Env}
    {base : Nat} {s s' : Sock} {mem mem' : Memory} {ret : Int} (ok : s.Ok)
    (short : base + entry.len < 2 ^ 31) (shorts : ∀ next ∈ rest, next.len < 2 ^ 31)
    (done : recvdataGo nonblock entry rest envs base base s mem = some (ret, mem', s')) :
    ∃ out, Got false s mem 0 base (entry.len + (rest.map Iovec.len).sum) ret mem' s' out := by
  induction rest generalizing entry envs base s mem with
  | nil =>
    obtain ⟨⟨ret₁, mem₁, s₁, left⟩, read, same⟩ := Option.map_eq_some_iff.mp done
    simp only [Prod.mk.injEq] at same
    obtain ⟨rfl, rfl, rfl⟩ := same
    obtain ⟨out, got⟩ := readEntry_got ok (by omega) read
    exact ⟨out, got.total short⟩
  | cons next rest ih =>
    obtain ⟨⟨ret₁, mem₁, s₁, left⟩, read, goes⟩ := Option.bind_eq_some_iff.mp done
    obtain ⟨out, got⟩ := readEntry_got ok (by omega) read
    have room := got.room
    have small := shorts next (List.mem_cons_self ..)
    simp only at goes
    split_ifs at goes with full
    · obtain ⟨whole, enough⟩ := full
      rw [int32_natCast (by omega)] at whole
      have filled : out.length = entry.len := by grind [got.result]
      rw [int32_natCast small, int32_of_range (by omega) (by omega)] at enough
      rw [int32_of_range (by omega) (by omega), whole, ← Nat.cast_add] at goes
      obtain ⟨more, later⟩ := ih (readEntry_ok ok read) (by omega)
        (fun other mem => shorts other (List.mem_cons_of_mem _ mem)) goes
      have room' := later.room
      have passes : Passes s s₁ out := got.passes
      have passes' : Passes s₁ s' more := later.passes
      refine ⟨out ++ more, ?_, ?_, passes.trans passes', ?_⟩
      · grind [later.stored, got.stored, store_append]
      · rw [List.length_append, List.map_cons, List.sum_cons]
        omega
      · rw [List.length_append]
        rcases later.result with count | ⟨none, empty, value⟩
        · omega
        · right
          have none' : out = [] := List.eq_nil_of_length_eq_zero (by omega)
          exact ⟨by omega, by rw [none', empty]; rfl, value⟩
    · simp only [Option.some.injEq, Prod.mk.injEq] at goes
      obtain ⟨rfl, rfl, rfl⟩ := goes
      exact ⟨out, got.total short⟩

/-! ## Runs -/

/-- What a call owes its caller: the bytes it returns are the next ones pending, which stay so with
`MSG_PEEK`; they are stored at the start of the caller's buffers; with -1 nothing is consumed. -/
structure CallOk (s : Sock) (mem : Memory) (call : Call) (ret : Int) (mem' : Memory) (s' : Sock) :
    Prop where
  stream : call.peek = false → Passes s s' (returned ret mem')
  peeked : call.peek = true → Passes s s' [] ∧ returned ret mem' <+: s'.pending
  stored : 0 < ret → ret ≤ call.size ∧ mem' = store mem 0 (returned ret mem')
  failed : ret = -1 → Passes s s' []

theorem returned_store (mem : Memory) (out : List UInt8) :
    returned out.length (store mem 0 out) = out := by
  rw [returned, Int.toNat_natCast]
  apply List.ext_getElem (by simp)
  grind [store]

theorem Got.callOk {call : Call} {s s' : Sock} {mem mem' : Memory} {ret : Int} {out : List UInt8}
    (got : Got call.peek s mem 0 0 call.size ret mem' s' out) :
    CallOk s mem call ret mem' s' := by
  constructor <;> grind [got.room, got.stored, got.passes, returned, got.result, returned_store]

/-- Every call with short lengths keeps its duties. -/
theorem Call.run_callOk {call : Call} {s s' : Sock} {mem mem' : Memory} {ret : Int} (ok : s.Ok)
    (short : call.Short) (done : call.run s mem = some (ret, mem', s')) :
    CallOk s mem call ret mem' s' := by
  have reads {nonblock iov envs} (peek : call.peek = false)
      (size : call.size = (iov.map Iovec.len).sum) (shorts : ∀ entry ∈ iov, entry.len < 2 ^ 31)
      (done : Receive.readv nonblock iov envs s mem = some (ret, mem', s')) :
      CallOk s mem call ret mem' s' := by
    suffices ∃ out, Got call.peek s mem 0 0 call.size ret mem' s' out from
      Exists.elim this fun _ got => got.callOk
    have refused (same : some ((-1 : Int), mem, s) = some (ret, mem', s')) :
        ∃ out, Got call.peek s mem 0 0 call.size ret mem' s' out := by
      simp only [Option.some.injEq, Prod.mk.injEq] at same
      obtain ⟨rfl, rfl, rfl⟩ := same
      exact ⟨[], .nothing (.refl s) (.inr ⟨rfl, .inl rfl⟩)⟩
    cases iov with
    | nil => exact refused done
    | cons first rest =>
      rw [Receive.readv] at done
      split_ifs at done
      · exact refused done
      · rw [peek, size, List.map_cons, List.sum_cons]
        exact recvdataGo_got ok (by simpa using shorts first (List.mem_cons_self ..))
          (fun next mem => shorts next (List.mem_cons_of_mem _ mem)) done
  cases call with
  | recvfrom args env =>
    obtain ⟨out, got⟩ := recvfrom_got ok short done
    exact @Got.callOk (.recvfrom args env) _ _ _ _ _ _ got
  | readv nonblock iov envs => exact reads rfl rfl short done
  | recvmsg nonblock namelen iov envs =>
    rw [run, getSockaddr_eq, if_neg (by decide)] at done
    exact reads rfl rfl short done

/-- What happens to a socket. -/
inductive Action
  | arrive (chains : List Chain)
  | receive (call : Call) (mem : Memory)

/-- An action on a socket and on the bytes returned so far by calls without `MSG_PEEK`. -/
def act : Sock × List UInt8 → Action → Option (Sock × List UInt8)
  | (s, got), .arrive chains => some (s.arrive chains, got)
  | (s, got), .receive call mem => (call.run s mem).map fun (ret, mem', s') =>
    (s', if call.peek then got else got ++ returned ret mem')

/-- The lengths of a call are less than 2^31. -/
def Action.Short : Action → Prop
  | .arrive _ => True
  | .receive call _ => call.Short

/-- What holds in every state: the representation, and the bytes put are those returned and those
pending. -/
theorem runs_stream {start : Sock × List UInt8} (run : Runs act (fun _ a => a.Short) (.empty, [])
    start) : start.1.Ok ∧ bytesOf start.1.put = start.2 ++ start.1.pending := by
  refine run.invariant (P := fun s => s.1.Ok ∧ bytesOf s.1.put = s.2 ++ s.1.pending) ?_ ?_
  · exact ⟨.empty, rfl⟩
  · rintro ⟨s, got⟩ action ⟨s', got'⟩ ⟨ok, stream⟩ short taken
    have passed {out} (passes : Passes s s' out) : bytesOf s'.put = got ++ out ++ s'.pending := by
      obtain ⟨chains, put, bytes⟩ := passes
      grind [bytesOf]
    cases action with
    | arrive chains => grind [act, ok.arrive, passes_arrive]
    | receive call mem =>
      obtain ⟨⟨ret, mem', after⟩, returns, same⟩ := Option.map_eq_some_iff.mp taken
      simp only [Prod.mk.injEq] at same
      obtain ⟨rfl, rfl⟩ := same
      have duties := call.run_callOk ok short returns
      refine ⟨call.run_ok ok returns, ?_⟩
      cases peek : call.peek with
      | false => simpa [peek] using passed (duties.stream peek)
      | true => simpa [peek] using passed (duties.peeked peek).1

/-- A socket with nothing to read gets a chain, and a call reads all of it. -/
theorem recvfrom_whole {s : Sock} (ring : s.ring = []) (event : s.rcvevent = 0)
    (last : s.lastdata = none) (offset : s.lastoffset = 0) {args : Args} (reads : args.peek = false)
    {c : Chain} (enough : c.totLen ≤ args.len) (mem : Memory) :
    recvfrom args ⟨true, [⟨[c], [], none, []⟩]⟩ 0 s mem =
      some (int32 c.totLen, store mem 0 c.bytes, { s with
        messages := s.messages ++ [doRecv c.bufs], taken := s.taken ++ [c],
        put := s.put ++ [c] }) := by
  obtain ⟨r, e, l, o, messages, taken, put⟩ := s
  obtain rfl : r = [] := ring
  obtain rfl : e = 0 := event
  obtain rfl : l = none := last
  obtain rfl : o = 0 := offset
  have found : find args ⟨[c], [], none, []⟩ ⟨[], 0, none, 0, messages, taken, put⟩ 0 =
      .chain c ⟨[], 0, some c, 0, messages, taken ++ [c], put ++ [c]⟩ := by
    simp [find, Sock.arrive]
  have most : min args.len (c.totLen - 0) = c.totLen := by omega
  have copied : splPbufCopyPartial (c.bufs.map Buf.payload) c.totLen 0 = c.bytes := by
    rw [splPbufCopyPartial_eq, ← List.flatMap_def, List.drop_zero]
    exact List.take_length
  have filled : ¬ (0 < c.totLen ∧ c.bytes = []) := fun empty => c.filled empty.2
  have small := c.totLen_lt
  have some := c.totLen_pos
  have whole : (0 + c.totLen) % 2 ^ 32 = c.totLen := by omega
  rw [recvfrom, if_neg (by simp), loop, found]
  grind [Sock.arrive, getSockaddr_eq, Sock.recvNoPeak, Sock.freeRecvbuf]

/-- In every run whose calls have lengths below 2^31, the bytes returned are a prefix of those put,
and every such call keeps its duties. A call of `sbr_tcp_recvfrom` for at least 2^31 bytes does not,
for some chains that arrive. -/
theorem receive_stream_exact {s : Sock} {got : List UInt8}
    (run : Runs act (fun _ a => a.Short) (.empty, []) (s, got)) :
    got <+: bytesOf s.put ∧
      (∀ call mem ret mem' s', call.Short → call.run s mem = some (ret, mem', s') →
        CallOk s mem call ret mem' s') ∧
      ∀ args : Args, args.peek = false →
        ((∀ env mem ret mem' s', (Call.recvfrom args env).run .empty mem = some (ret, mem', s') →
          CallOk .empty mem (.recvfrom args env) ret mem' s') ↔ args.len < 2 ^ 31) := by
  obtain ⟨ok, stream⟩ := runs_stream run
  refine ⟨⟨s.pending, stream.symm⟩, fun call mem ret mem' s' short done =>
    call.run_callOk ok short done,
      fun args reads => ⟨fun duties => ?_, fun short env mem ret mem' s'
      done => @Call.run_callOk (.recvfrom args env) _ _ _ _ _ .empty short done⟩⟩
  by_contra large
  have length : ([⟨0, List.replicate (2 ^ 31) 0, 1⟩] : List Buf).flatMap Buf.payload =
      List.replicate (2 ^ 31) 0 := by
    rw [List.flatMap_singleton]
  have filled : List.replicate (2 ^ 31) (0 : UInt8) ≠ [] := by
    rw [Ne, List.replicate_eq_nil_iff]
    decide
  let c : Chain := ⟨[⟨0, List.replicate (2 ^ 31) 0, 1⟩], by rw [length]; exact filled,
    List.nodup_singleton _, by rw [length, List.length_replicate]; decide⟩
  have size : c.totLen = 2 ^ 31 := by
    rw [Chain.totLen, Chain.bytes, length, List.length_replicate]
  have read := recvfrom_whole (s := .empty) rfl rfl rfl rfl reads (c := c) (by omega) fun _ => 0
  have wrapped : int32 ((2 ^ 31 : Nat) : Int) = -2 ^ 31 := by decide
  rw [size, wrapped] at read
  obtain ⟨chains, put, bytes⟩ := (duties _ _ _ _ _ read).stream reads
  have only : chains = [c] := put.symm
  rw [only] at bytes
  have empty : bytesOf [c] = [] := bytes
  rw [bytesOf, List.flatMap_singleton] at empty
  exact c.filled empty

/-- A chain of one `spl_pbuf` with some bytes. -/
def chainOf (id mbufs : Nat) (first : UInt8) (rest : List UInt8) (short : rest.length < 2 ^ 31) :
    Chain :=
  ⟨[⟨id, first :: rest, mbufs⟩], by simp, by simp, by simp; omega⟩

/-- A turn in which a chain arrives. -/
def turnOf (c : Chain) : Turn := ⟨[c], [], none, []⟩

/-- A call for ten bytes while a chain of one arrives. -/
def oneByte : Action :=
  .receive (.recvfrom ⟨10, false, false, none⟩ ⟨true, [turnOf (chainOf 0 1 7 [] (by decide))]⟩)
    fun _ => 0

/-- One byte is put, and read by a call for ten. -/
theorem receive_one_byte :
    ∃ s got, Runs act (fun _ a => a.Short) (.empty, []) (s, got) ∧ got = [7] ∧
      got <+: bytesOf s.put := by
  have taken : (act (.empty, []) oneByte).isSome := by decide +kernel
  obtain ⟨⟨s, got⟩, taken⟩ := Option.isSome_iff_exists.mp taken
  have run := @Runs.step _ _ act (fun _ a => a.Short) _ _ _ oneByte .start
    (show (10 : Nat) < 2 ^ 31 by decide) taken
  have same : (act (.empty, []) oneByte).map Prod.snd = some [7] := by decide +kernel
  rw [taken] at same
  exact ⟨s, got, run, Option.some.inj same, (receive_stream_exact run).1⟩

/-- The first entry has 2^32 + 5 bytes, which is 5 as an `int`: when 5 bytes have been stored in it,
the next two go to the second entry. The caller is told of 7 bytes, and finds zeros for the last
two. -/
theorem scattered_bytes :
    ((Call.readv false [⟨true, 2 ^ 32 + 5⟩, ⟨true, 10⟩]
        [⟨true, [turnOf (chainOf 0 1 1 [2, 3, 4, 5] (by decide))]⟩,
          ⟨true, [turnOf (chainOf 1 1 6 [7] (by decide))]⟩]).run .empty fun _ => 0).map
      (fun (ret, mem, s) => (ret, returned ret mem, bytesOf s.put, s.pending)) =
    some (7, [1, 2, 3, 4, 5, 0, 0], [1, 2, 3, 4, 5, 6, 7], []) := by
  decide +kernel

/-! ## Handing back -/

/-- Each chain taken is named by one message, and nothing else is. -/
def HandedBack (s : Sock) : Prop :=
  (s.messages.map DoRecv.p).Perm (s.taken.map fun c => c.bufs.head?.map Buf.id)

/-- The representation holds in every state, for calls of any length. -/
theorem runs_ok {start : Sock × List UInt8}
    (run : Runs act (fun _ _ => True) (.empty, []) start) : start.1.Ok := by
  refine run.invariant (P := fun s => s.1.Ok) .empty ?_
  rintro ⟨s, got⟩ action ⟨s', got'⟩ ok - taken
  cases action with
  | arrive chains => grind [act, ok.arrive]
  | receive call mem =>
    obtain ⟨result, returns, same⟩ := Option.map_eq_some_iff.mp taken
    simp only [Prod.mk.injEq] at same
    rw [← same.1]
    exact call.run_ok ok returns

/-- After any receive calls, `sbr_tcp_close` leaves every chain handed back once exactly when none
is pending in `lastdata`. -/
theorem close_hands_back_iff {s : Sock} {got : List UInt8}
    (run : Runs act (fun _ _ => True) (.empty, []) (s, got)) :
    HandedBack s.close ↔ s.lastdata = none := by
  obtain ⟨handed, taken, posted⟩ := (runs_ok run).handed
  simp only at taken posted
  rw [Sock.close]
  cases last : s.lastdata with
  | none =>
    simp only [last, Option.toList_none, List.append_nil] at taken
    rw [HandedBack, posted, taken, List.map_map]
    exact iff_of_true (.refl _) rfl
  | some c =>
    simp only [reduceCtorEq, iff_false]
    intro back
    simp only [HandedBack, Sock.freeRecvbuf, posted, taken, last, Option.toList_some,
      List.map_append, List.map_map, List.map_cons, List.map_nil] at back
    have same := List.singleton_perm_singleton.mp ((List.perm_append_left_iff _).mp back)
    have distinct := c.distinct
    cases bufs : c.bufs with
    | nil => exact c.filled (by rw [bufs]; rfl)
    | cons first rest =>
      cases rest with
      | nil => simp [doRecv, bufs] at same
      | cons second rest =>
        simp only [doRecv, bufs, List.tail_cons, List.head?_cons, Option.map_some,
          Option.some.injEq] at same
        simp [bufs, same] at distinct

/-- A chain that has been read to its end is handed back. -/
theorem close_after_reading :
    ∃ s got, Runs act (fun _ _ => True) (.empty, []) (s, got) ∧ s.taken.length = 1 ∧
      HandedBack s.close := by
  obtain ⟨⟨s, got⟩, run, test⟩ := @exists_runs_of_execute _ _ act (fun _ _ => True) (.empty, [])
    (fun _ _ => true) (fun s => s.1.taken.length = 1 ∧ s.1.lastdata = none) [oneByte]
    (fun _ _ _ => trivial) (by decide +kernel)
  obtain ⟨one, read⟩ := of_decide_eq_true test
  exact ⟨s, got, run, one, (close_hands_back_iff run).mpr read⟩

/-- Two `spl_pbuf`s are pending after one byte has been read: the first is not handed back, but the
second is. -/
theorem close_hands_back_next :
    ∃ s got, Runs act (fun _ _ => True) (.empty, []) (s, got) ∧
      s.taken.map (fun c => c.bufs.head?.map Buf.id) = [some 3] ∧
      s.close.messages = [⟨1, some 4⟩] := by
  let c : Chain := ⟨[⟨3, [1, 2], 1⟩, ⟨4, [5], 1⟩], by decide, by decide, by decide⟩
  obtain ⟨⟨s, got⟩, run, test⟩ := @exists_runs_of_execute _ _ act (fun _ _ => True)
    (.empty, []) (fun _ _ => true) (fun s => s.1.taken.map (fun c => c.bufs.head?.map Buf.id) =
      [some 3] ∧ s.1.close.messages = [⟨1, some 4⟩])
    [.receive (.recvfrom ⟨1, false, false, none⟩ ⟨true, [turnOf c]⟩) fun _ => 0]
    (fun _ _ _ => trivial) (by decide +kernel)
  exact ⟨s, got, run, of_decide_eq_true test⟩

/-! ## Window credit -/

/-- `do_recv` on messages, oldest first: the length given to `tcp_recved` is 16 bits wide. -/
def recved (mss : Nat) (messages : List DoRecv) : Nat :=
  (messages.map fun m => m.len * mss % 2 ^ 16).sum

/-- The credit for a chain. -/
def credit (mss : Nat) (c : Chain) : Nat := mbufCount c.bufs * mss % 2 ^ 16

/-- With so many messages processed, the credit is at most what was delivered, and equal to it when
everything has been read and processed. -/
def Credited (mss : Nat) (s : Sock) (processed : Nat) : Prop :=
  recved mss (s.messages.take processed) ≤ (s.put.map Chain.totLen).sum ∧
    (s.ring = [] → s.lastdata = none → processed = s.messages.length →
      recved mss (s.messages.take processed) = (s.put.map Chain.totLen).sum)

theorem recved_map (mss : Nat) (chains : List Chain) :
    recved mss (chains.map fun c => doRecv c.bufs) = (chains.map (credit mss)).sum := by
  rw [recved, List.map_map]
  rfl

theorem exists_drained (chains : List Chain) :
    ∃ s got, Runs act (fun _ _ => True) (.empty, []) (s, got) ∧ s.put = chains ∧ s.ring = [] ∧
      s.rcvevent = 0 ∧ s.lastdata = none ∧ s.lastoffset = 0 := by
  induction chains using List.reverseRecOn with
  | nil => exact ⟨.empty, [], .start, rfl, rfl, rfl, rfl, rfl⟩
  | append_singleton chains c ih =>
    obtain ⟨s, got, run, rfl, ring, event, last, offset⟩ := ih
    have read := @recvfrom_whole _ ring event last offset ⟨c.totLen, false, false, none⟩ rfl
      c (Nat.le_refl _) fun _ => 0
    have taken : act (s, got) (.receive (.recvfrom ⟨c.totLen, false, false, none⟩
        ⟨true, [turnOf c]⟩) fun _ => 0) = some _ := congrArg (Option.map _) read
    exact ⟨_, _, run.step _ trivial taken, rfl, ring, event, last, offset⟩

/-- For every sequence of chains delivered, the credit is right in all runs exactly when each chain
has as many bytes as its mbufs count for. -/
theorem credit_exact_iff (mss : Nat) (chains : List Chain) :
    (∀ s got, Runs act (fun _ _ => True) (.empty, []) (s, got) → s.put <+: chains →
      ∀ processed ≤ s.messages.length, Credited mss s processed) ↔
    ∀ c ∈ chains, credit mss c = c.totLen := by
  constructor
  · intro credited c mem
    have exact (l : List Chain) (first : l <+: chains) :
        (l.map (credit mss)).sum = (l.map Chain.totLen).sum := by
      obtain ⟨s, got, run, rfl, ring, -, last, -⟩ := exists_drained l
      have ok := runs_ok run
      obtain ⟨handed, taken, posted⟩ := ok.handed
      have queue := ok.queue
      simp only [last, ring, Option.toList_none, List.append_nil] at taken posted queue
      have all := (credited s got run first _ (Nat.le_refl _)).2 ring last rfl
      rw [List.take_length, posted, recved_map, ← taken, ← queue] at all
      exact all
    obtain ⟨pre, post, rfl⟩ := List.append_of_mem mem
    have before := exact pre (List.prefix_append _ _)
    have after := exact (pre ++ [c]) ⟨post, by simp⟩
    simp only [List.map_append, List.sum_append, List.map_cons, List.map_nil, List.sum_cons,
      List.sum_nil] at after
    omega
  · intro meets s got run first processed _
    have ok := runs_ok run
    obtain ⟨handed, taken, posted⟩ := ok.handed
    have queue := ok.queue
    simp only at taken posted queue
    have same (l : List Chain) (sub : l ⊆ s.put) :
        (l.map (credit mss)).sum = (l.map Chain.totLen).sum :=
      congrArg List.sum (List.map_congr_left fun c mem => meets c (first.subset (sub mem)))
    have part : handed.take processed <+: s.put := by
      rw [queue, taken, List.append_assoc]
      exact (List.take_prefix _ _).trans (List.prefix_append _ _)
    have count : recved mss (s.messages.take processed) =
        ((handed.take processed).map Chain.totLen).sum := by
      rw [posted, ← List.map_take, recved_map, same _ part.subset]
    refine ⟨?_, fun ring last all => ?_⟩
    · rw [count]
      exact (part.sublist.map _).sum_le_sum fun _ _ => Nat.zero_le _
    · have whole : handed.length = processed := by rw [all, posted, List.length_map]
      rw [count, ← whole, List.take_length, queue, taken, ring, last]
      simp

/-- A segment of three bytes in one mbuf is credited with a whole `TCP_MSS`. -/
theorem credit_exceeds :
    ∃ s got, Runs act (fun _ _ => True) (.empty, []) (s, got) ∧
      (s.put.map Chain.totLen).sum = 3 ∧ recved 536 s.messages = 536 := by
  obtain ⟨⟨s, got⟩, run, test⟩ := @exists_runs_of_execute _ _ act (fun _ _ => True)
    (.empty, []) (fun _ _ => true)
    (fun s => (s.1.put.map Chain.totLen).sum = 3 ∧ recved 536 s.1.messages = 536)
    [.receive (.recvfrom ⟨10, false, false, none⟩
      ⟨true, [turnOf (chainOf 0 ((splMbufMalloc 8 (3 + transportOffset 40)).getD []).length 7 [8, 9]
        (by decide))]⟩) fun _ => 0]
    (fun _ _ _ => trivial) (by decide +kernel)
  exact ⟨s, got, run, of_decide_eq_true test⟩

end Dmm.Tcp.Receive
