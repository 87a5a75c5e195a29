import Dmm.Select.Fdset

/-!
# Select of the lwIP module

`lwip_try_select` looks up every requested fd, collects the ready ones in three new sets and copies
these over those of the caller at the end.
-/

namespace Dmm.Select.TrySelect

/-! ## The loop -/

/-- What the loop reads of a socket: is there unread `lastdata`, and the events. -/
structure Sock where
  lastdata : Bool
  rcvevent : Int
  sendevent : Nat
  errevent : Nat
  deriving DecidableEq, Repr

/-- `SBR_MAX_FD_NUM`, also `NSTACK_SETSIZE` of the module. -/
def sbrMaxFdNum : Nat := 8192

/-- `sbr_lookup_sk`, over the sockets that have both objects. -/
def sbrLookupSk (socks : Nat → Option Sock) (fd : Nat) : Option Sock :=
  if fd < 1 ∨ sbrMaxFdNum < fd then none else socks fd

/-- A call: `none` for a null pointer. -/
structure Request where
  fdsize : Nat
  sets : Cond → Option (Finset Nat)
  fdsize_lt : fdsize < sbrMaxFdNum
  below : ∀ c, ∀ set ∈ sets c, ∀ i ∈ set, i < fdsize

/-- The fds that are requested for a condition. -/
def Request.fds (req : Request) (c : Cond) : Finset Nat := (req.sets c).getD ∅

/-- `read_out`, `write_out`, `err_out` and `nready` -/
structure Out where
  read : Finset Nat
  write : Finset Nat
  except : Finset Nat
  nready : Nat

/-- A round of the loop; an error event is put into `write_out`. -/
def round (socks : Nat → Option Sock) (req : Request) (i : Nat) (out : Out) : Option Out :=
  if i ∉ req.fds .read ∧ i ∉ req.fds .write ∧ i ∉ req.fds .except then some out
  else
    (sbrLookupSk socks i).map fun sock =>
      let out :=
        if i ∈ req.fds .read ∧ (sock.lastdata = true ∨ 0 < sock.rcvevent) then
          { out with read := insert i out.read, nready := out.nready + 1 }
        else out
      let out :=
        if i ∈ req.fds .write ∧ sock.sendevent ≠ 0 then
          { out with write := insert i out.write, nready := out.nready + 1 }
        else out
      if i ∈ req.fds .except ∧ sock.errevent ≠ 0 then
        { out with write := insert i out.write, nready := out.nready + 1 }
      else out

/-- The first rounds of the loop. -/
def rounds (socks : Nat → Option Sock) (req : Request) : Nat → Option Out
  | 0 => some ⟨∅, ∅, ∅, 0⟩
  | n + 1 => (rounds socks req n).bind (round socks req n)

/-- `lwip_try_select`; `allocated` if there is memory for the three sets. -/
def lwipTrySelect (allocated : Bool) (socks : Nat → Option Sock) (req : Request) :
    Int × (Cond → Option (Finset Nat)) :=
  if allocated = false then (-1, req.sets)
  else
    match rounds socks req req.fdsize with
    | none => (-1, req.sets)
    | some out =>
      (out.nready, fun c => (req.sets c).map fun _ =>
        match c with
        | .read => out.read
        | .write => out.write
        | .except => out.except)

/-! ## When the answer is exact -/

/-- A socket is ready for a condition. -/
def Sock.Ready (sock : Sock) : Cond → Prop
  | .read => sock.lastdata = true ∨ 0 < sock.rcvevent
  | .write => sock.sendevent ≠ 0
  | .except => sock.errevent ≠ 0

/-- A requested fd is ready for a condition. -/
def Request.Ready (req : Request) (socks : Nat → Option Sock) (c : Cond) (i : Nat) : Prop :=
  i ∈ req.fds c ∧ ∃ sock ∈ sbrLookupSk socks i, sock.Ready c

/-- A failed call leaves the sets; another returns the number of bits in its sets, which are those
of the ready fds. -/
def Right (allocated : Bool) (socks : Nat → Option Sock) (req : Request) : Prop :=
  let answer := lwipTrySelect allocated socks req
  if answer.1 < 0 then answer.2 = req.sets
  else
    answer.1 = FdSets.size (fun c => (answer.2 c).getD ∅) ∧
      ∀ c i, i ∈ (answer.2 c).getD ∅ ↔ req.Ready socks c i

/-- There is no memory, or a requested fd is not that of a socket, or no fd requested for exceptions
has an error event. -/
def Meets (allocated : Bool) (socks : Nat → Option Sock) (req : Request) : Prop :=
  allocated = false ∨ (∃ c, ∃ i ∈ req.fds c, sbrLookupSk socks i = none) ∨
    ∀ i, ¬req.Ready socks .except i

section Loop
variable {socks : Nat → Option Sock} {req : Request}

/-- What the first rounds have collected. -/
structure Collected (socks : Nat → Option Sock) (req : Request) (n : Nat) (out : Out) : Prop where
  read : ∀ i, i ∈ out.read ↔ i < n ∧ req.Ready socks .read i
  write : ∀ i, i ∈ out.write ↔ i < n ∧ (req.Ready socks .write i ∨ req.Ready socks .except i)
  except : out.except = ∅
  count : (∀ i, ¬req.Ready socks .except i) → out.nready = out.read.card + out.write.card

/-- A round on an fd that is not requested, without a socket, or with one. -/
theorem round_cases {n : Nat} {out : Out} (collected : Collected socks req n out) :
    ((∃ c, n ∈ req.fds c) ∧ sbrLookupSk socks n = none ∧ round socks req n out = none) ∨
      ((∃ c, n ∈ req.fds c) → sbrLookupSk socks n ≠ none) ∧
        ∃ next, round socks req n out = some next ∧ Collected socks req (n + 1) next := by
  have fresh : n ∉ out.read ∧ n ∉ out.write := by
    simp [collected.read, collected.write]
  have wanted : (∃ c, n ∈ req.fds c) ↔
      ¬(n ∉ req.fds .read ∧ n ∉ req.fds .write ∧ n ∉ req.fds .except) := by
    constructor
    · rintro ⟨c, wanted⟩ none_
      cases c <;> simp_all
    · intro some_
      by_contra none_
      exact some_ ⟨fun w => none_ ⟨_, w⟩, fun w => none_ ⟨_, w⟩, fun w => none_ ⟨_, w⟩⟩
  unfold round
  by_cases some_ : ∃ c, n ∈ req.fds c
  · rw [if_neg (wanted.mp some_)]
    cases found : sbrLookupSk socks n with
    | none => exact .inl ⟨some_, rfl, rfl⟩
    | some sock =>
      refine .inr ⟨fun _ => nofun, _, rfl, ?_⟩
      have ready (c : Cond) : req.Ready socks c n ↔ n ∈ req.fds c ∧ sock.Ready c := by
        simp [Request.Ready, found]
      have read := ready .read
      have write := ready .write
      have except := ready .except
      simp only [Sock.Ready] at read write except
      simp only [← read, ← write, ← except]
      have split_ (P : Nat → Prop) (i : Nat) : i < n + 1 ∧ P i ↔ i = n ∧ P n ∨ i < n ∧ P i := by
        rcases Nat.lt_trichotomy i n with less | rfl | more <;> grind
      constructor
      · grind [collected.read]
      · grind [collected.write]
      · grind [collected.except]
      · intro none_
        have count := collected.count none_
        grind [Finset.card_insert_of_notMem]
  · rw [if_pos (by simpa using mt wanted.mpr some_)]
    refine .inr ⟨fun wanted => absurd wanted some_, out, rfl, ?_⟩
    have never (c : Cond) : ¬req.Ready socks c n := fun ready => some_ ⟨c, ready.1⟩
    refine ⟨fun i => ?_, fun i => ?_, collected.except, collected.count⟩
    · grind [collected.read]
    · grind [collected.write]

/-- The loop fails at an fd without a socket, and collects the ready fds otherwise. -/
theorem rounds_cases (n : Nat) :
    ((∃ c, ∃ i ∈ req.fds c, i < n ∧ sbrLookupSk socks i = none) ∧ rounds socks req n = none) ∨
      (∀ c, ∀ i ∈ req.fds c, i < n → sbrLookupSk socks i ≠ none) ∧
        ∃ out, rounds socks req n = some out ∧ Collected socks req n out := by
  induction n with
  | zero => exact .inr ⟨nofun, _, rfl, by simp, by simp, rfl, fun _ => rfl⟩
  | succ n ih =>
    rcases ih with ⟨⟨c, i, wanted, before, missing⟩, failed⟩ | ⟨found, out, done, collected⟩
    · exact .inl ⟨⟨c, i, wanted, by omega, missing⟩, by rw [rounds, failed]; rfl⟩
    · rw [rounds, done, Option.bind_some]
      rcases round_cases collected with ⟨⟨c, wanted⟩, missing, failed⟩ |
        ⟨here, next, goes, collected⟩
      · exact .inl ⟨⟨c, n, wanted, by omega, missing⟩, failed⟩
      · refine .inr ⟨fun c i wanted before => ?_, next, goes, collected⟩
        rcases Nat.lt_succ_iff_lt_or_eq.mp before with less | rfl
        · exact found c i wanted less
        · exact here ⟨c, wanted⟩

end Loop

/-- The answer of `lwip_try_select` is exact exactly if the call meets the condition. -/
theorem try_select_iff (allocated : Bool) (socks : Nat → Option Sock) (req : Request) :
    Right allocated socks req ↔ Meets allocated socks req := by
  have below (c : Cond) (i : Nat) (wanted : i ∈ req.fds c) : i < req.fdsize := by
    unfold Request.fds at wanted
    cases given : req.sets c with
    | none => simp [given] at wanted
    | some set => exact req.below c set given i (by simpa [given] using wanted)
  unfold Right Meets lwipTrySelect
  cases allocated with
  | false => simp
  | true =>
    simp only [Bool.true_eq_false, if_false, false_or]
    rcases @rounds_cases socks req req.fdsize with
      ⟨⟨c, i, wanted, -, missing⟩, failed⟩ | ⟨found, out, done, collected⟩
    · rw [failed]
      exact iff_of_true (by simp) (.inl ⟨c, i, wanted, missing⟩)
    · rw [done]
      have all : ¬∃ c, ∃ i ∈ req.fds c, sbrLookupSk socks i = none := fun ⟨c, i, wanted, missing⟩ =>
        found c i wanted (below c i wanted) missing
      have null (c : Cond) (none_ : req.sets c = none) (i : Nat) : ¬req.Ready socks c i := by
        simp [Request.Ready, Request.fds, none_]
      have inside (c : Cond) (i : Nat) (ready : req.Ready socks c i) : i < req.fdsize :=
        below c i ready.1
      have except : ((req.sets .except).map fun _ => out.except).getD ∅ = ∅ := by
        rw [collected.except]
        cases req.sets .except <;> rfl
      simp only [all, false_or, Int.natCast_nonneg, Int.not_lt.mpr, if_false]
      constructor
      · rintro ⟨-, exact_⟩ i ready
        have listed := (exact_ .except i).mpr ready
        rw [except] at listed
        exact absurd listed (Finset.notMem_empty i)
      · intro none_
        have read : ((req.sets .read).map fun _ => out.read).getD ∅ = out.read := by
          cases given : req.sets .read with
          | none => simp [Finset.ext_iff, collected.read, null _ given]
          | some set => rfl
        have write : ((req.sets .write).map fun _ => out.write).getD ∅ = out.write := by
          cases given : req.sets .write with
          | none => simp [Finset.ext_iff, collected.write, null _ given, none_]
          | some set => rfl
        refine ⟨?_, fun c i => ?_⟩
        · simp only [FdSets.size, read, write, except, Finset.card_empty, collected.count none_,
            Nat.add_zero]
        · cases c with
          | read => rw [read, collected.read]; exact and_iff_right_of_imp (inside _ i)
          | write =>
            rw [write, collected.write, or_iff_left (none_ i)]
            exact and_iff_right_of_imp (inside _ i)
          | except => simp [except, none_ i]

/-- The fd 1 is requested for exceptions only. -/
def exceptOnly : Request where
  fdsize := 2
  sets c := if c = .except then some {1} else none
  fdsize_lt := by decide
  below c := by cases c <;> simp

/-- The fd has an error event: the answer is one, and no bit is set. -/
theorem error_event_lost :
    ∃ (socks : Nat → Option Sock) (req : Request), req.Ready socks .except 1 ∧
      (lwipTrySelect true socks req).1 = 1 ∧
      ∀ c, ((lwipTrySelect true socks req).2 c).getD ∅ = ∅ := by
  refine ⟨fun _ => some ⟨false, 0, 0, 8⟩, exceptOnly, ?_, by decide +kernel, fun c => ?_⟩
  · exact ⟨by simp [Request.fds, exceptOnly], _, rfl, by simp [Sock.Ready]⟩
  · cases c <;> decide +kernel

end Dmm.Select.TrySelect
