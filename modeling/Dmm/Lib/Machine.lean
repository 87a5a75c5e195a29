import Mathlib

/-!
# Threads over a shared memory

The code of a thread is a deterministic machine that performs one access of a shared
memory in each step. Run alone from a memory it may return (`Returns`); run by a pool of
threads it is interleaved with the other threads at every access (`Pool.act`, `Reach`).
A pool keeps two auxiliary variables that no code reads: the log of the events the
accesses committed, and the length of the log when each thread's current call started.

`Reach.relyGuarantee` is the proof rule: a shared invariant and one local assertion per
thread, both about a ghost value, hold in every reachable pool when the steps of a thread
keep them and every assertion survives what the other threads may do to the ghost value.
`tally` adds up weights of the local states of all threads, for invariants that count the
threads at certain places: `tally_update` says how one step changes it.
-/

namespace Dmm.Machine

universe u

/-- The code of one thread: how a call starts, what the access of a local state does, and
the event that access commits, if any. -/
structure Code (κ τ σ ρ ε : Type u) where
  start : κ → τ
  /-- One access: the next local state or the result, and the memory afterwards. -/
  step : τ → σ → (τ ⊕ ρ) × σ
  event : τ → σ → Option ε

variable {ι κ τ σ ρ ε : Type u}

/-- A thread running alone from a local state and a memory returns a result and leaves a
memory. -/
inductive Returns (code : Code κ τ σ ρ ε) : τ → σ → ρ → σ → Prop
  | done {l s r s'} : code.step l s = (.inr r, s') → Returns code l s r s'
  | next {l s r s''} (l' : τ) (s' : σ) : code.step l s = (.inl l', s') →
      Returns code l' s' r s'' → Returns code l s r s''

/-- What follows an access: the result it has, or a run from the local state it left. -/
def Resumes (code : Code κ τ σ ρ ε) : τ ⊕ ρ → σ → ρ → σ → Prop
  | .inl l, s, r, s' => Returns code l s r s'
  | .inr r₀, s, r, s' => r = r₀ ∧ s' = s

theorem Returns.of_step {code : Code κ τ σ ρ ε} {l : τ} {s : σ} {r : ρ} {s'' : σ}
    (next : τ ⊕ ρ) (s' : σ) (go : code.step l s = (next, s'))
    (rest : Resumes code next s' r s'') : Returns code l s r s'' := by
  cases next with
  | inl l' => exact .next l' s' go rest
  | inr r₀ =>
    obtain ⟨rfl, rfl⟩ := rest
    exact .done go

/-- A call run alone from a memory returns a result and leaves a memory. -/
def Code.Calls (code : Code κ τ σ ρ ε) (c : κ) (s : σ) (r : ρ) (s' : σ) : Prop :=
  Returns code (code.start c) s r s'

/-- The code is deterministic, so a lone thread returns in at most one way. -/
theorem Returns.unique {code : Code κ τ σ ρ ε} {l : τ} {s s₁ s₂ : σ} {r₁ r₂ : ρ}
    (first : Returns code l s r₁ s₁) (second : Returns code l s r₂ s₂) :
    r₁ = r₂ ∧ s₁ = s₂ := by
  induction first with
  | done stop =>
    cases second with
    | done stop' => simp_all
    | next _ _ go _ => simp_all
  | next _ _ go _ ih =>
    cases second with
    | done stop' => simp_all
    | next _ _ go' rest =>
      rw [go] at go'
      obtain ⟨same, rfl⟩ := Prod.mk.inj go'
      obtain rfl := Sum.inl.inj same
      exact ih rest

/-- A thread that always goes on inside a set of configurations never returns. -/
theorem not_returns_of_trapped {code : Code κ τ σ ρ ε} (trap : τ → σ → Prop)
    (closed : ∀ l s, trap l s → ∃ l' s', code.step l s = (.inl l', s') ∧ trap l' s')
    {l : τ} {s : σ} (inside : trap l s) (r : ρ) (s' : σ) : ¬ Returns code l s r s' := by
  intro returns
  induction returns with
  | done stop =>
    obtain ⟨_, _, go, _⟩ := closed _ _ inside
    simp_all
  | next _ _ go _ ih =>
    obtain ⟨_, _, go', inside'⟩ := closed _ _ inside
    rw [go] at go'
    obtain ⟨same, rfl⟩ := Prod.mk.inj go'
    obtain rfl := Sum.inl.inj same
    exact ih inside'

/-- A run of a lone thread with the events it commits. -/
inductive Trace (code : Code κ τ σ ρ ε) : τ → σ → List ε → ρ → σ → Prop
  | done {l s r s'} : code.step l s = (.inr r, s') → Trace code l s (code.event l s).toList r s'
  | next {l s events r s''} (l' : τ) (s' : σ) : code.step l s = (.inl l', s') →
      Trace code l' s' events r s'' → Trace code l s ((code.event l s).toList ++ events) r s''

theorem Trace.returns {code : Code κ τ σ ρ ε} {l : τ} {s s' : σ} {events : List ε} {r : ρ}
    (trace : Trace code l s events r s') : Returns code l s r s' := by
  induction trace with
  | done stop => exact .done stop
  | next l' s' go _ ih => exact .next l' s' go ih

theorem Trace.ends {code : Code κ τ σ ρ ε} {l : τ} {s s' : σ} {r : ρ}
    (stop : code.step l s = (.inr r, s')) (quiet : code.event l s = none) :
    Trace code l s [] r s' := by
  have trace := Trace.done stop
  rwa [quiet] at trace

theorem Trace.silent {code : Code κ τ σ ρ ε} {l : τ} {s s'' : σ} {events : List ε} {r : ρ}
    (l' : τ) (s' : σ) (go : code.step l s = (.inl l', s')) (quiet : code.event l s = none)
    (rest : Trace code l' s' events r s'') : Trace code l s events r s'' := by
  have trace := Trace.next l' s' go rest
  rwa [quiet] at trace

theorem Trace.emits {code : Code κ τ σ ρ ε} {l : τ} {s s'' : σ} {events : List ε} {r : ρ}
    (l' : τ) (s' : σ) (e : ε) (go : code.step l s = (.inl l', s'))
    (event : code.event l s = some e) (rest : Trace code l' s' events r s'') :
    Trace code l s (e :: events) r s'' := by
  have trace := Trace.next l' s' go rest
  rwa [event] at trace

/-- One call after another, each run alone to its end and admitted by the memory it starts
from: the calls, their results and the memory they leave. -/
inductive Session (code : Code κ τ σ ρ ε) (may : κ → σ → Prop) : σ → List (κ × ρ) → σ → Prop
  | nil {s} : Session code may s [] s
  | cons {s c r s' calls s''} : may c s → code.Calls c s r s' →
      Session code may s' calls s'' → Session code may s ((c, r) :: calls) s''

/-- An invariant that every admitted complete call keeps holds after every session. -/
theorem Session.invariant {code : Code κ τ σ ρ ε} {may : κ → σ → Prop} {P : σ → Prop}
    {s s' : σ} {calls : List (κ × ρ)} (session : Session code may s calls s')
    (keeps : ∀ c r s s', P s → may c s → code.Calls c s r s' → P s') (holds : P s) : P s' := by
  induction session with
  | nil => exact holds
  | cons admitted call _ ih => exact ih (keeps _ _ _ _ holds admitted call)

theorem Session.append {code : Code κ τ σ ρ ε} {may : κ → σ → Prop} {s₁ s₂ s₃ : σ}
    {first second : List (κ × ρ)} (left : Session code may s₁ first s₂)
    (right : Session code may s₂ second s₃) : Session code may s₁ (first ++ second) s₃ := by
  induction left with
  | nil => exact right
  | cons admitted call _ ih => exact .cons admitted call (ih right)

/-- A thread running alone for a bounded number of accesses. -/
def Code.eval (code : Code κ τ σ ρ ε) : Nat → τ → σ → Option (ρ × σ)
  | 0, _, _ => none
  | fuel + 1, l, s =>
    match code.step l s with
    | (.inl l', s') => code.eval fuel l' s'
    | (.inr r, s') => some (r, s')

/-- Calls one after another, each bounded, with their results. -/
def Code.evalAll (code : Code κ τ σ ρ ε) (fuel : Nat) : σ → List κ → Option (List (κ × ρ))
  | _, [] => some []
  | s, c :: calls =>
    (code.eval fuel (code.start c) s).bind fun out =>
      (code.evalAll fuel out.2 calls).map ((c, out.1) :: ·)

theorem Code.eval_returns {code : Code κ τ σ ρ ε} {fuel : Nat} {l : τ} {s s' : σ} {r : ρ}
    (ran : code.eval fuel l s = some (r, s')) : Returns code l s r s' := by
  induction fuel generalizing l s with
  | zero => cases ran
  | succ fuel ih =>
    unfold eval at ran
    split at ran
    · rename_i go
      exact .next _ _ go (ih ran)
    · rename_i stop
      obtain ⟨rfl, rfl⟩ := Prod.mk.inj (Option.some.inj ran)
      exact .done stop

theorem Code.evalAll_session {code : Code κ τ σ ρ ε} {may : κ → σ → Prop} {fuel : Nat} {s : σ}
    {calls : List κ} {results : List (κ × ρ)} (admitted : ∀ c s, may c s)
    (ran : code.evalAll fuel s calls = some results) : ∃ s', Session code may s results s' := by
  induction calls generalizing s results with
  | nil =>
    obtain rfl := Option.some.inj ran
    exact ⟨s, .nil⟩
  | cons c calls ih =>
    obtain ⟨⟨r, s₁⟩, first, others⟩ := Option.bind_eq_some_iff.mp ran
    obtain ⟨rest, ran', rfl⟩ := Option.map_eq_some_iff.mp others
    obtain ⟨s', session⟩ := ih ran'
    exact ⟨s', .cons (admitted c s) (eval_returns first) session⟩

section Sum

variable {κ' τ' : Type u}

/-- The code of threads that run calls of either of two codes over one memory. -/
def Code.sum (A : Code κ τ σ ρ ε) (B : Code κ' τ' σ ρ ε) : Code (κ ⊕ κ') (τ ⊕ τ') σ ρ ε where
  start := Sum.map A.start B.start
  step
    | .inl l, s => ((A.step l s).1.map Sum.inl id, (A.step l s).2)
    | .inr l, s => ((B.step l s).1.map Sum.inr id, (B.step l s).2)
  event
    | .inl l, s => A.event l s
    | .inr l, s => B.event l s

/-- A code whose local states are among those of another, with the same accesses. -/
structure Code.Embeds (A : Code κ τ σ ρ ε) (C : Code κ' τ' σ ρ ε) (into : τ → τ') : Prop where
  step : ∀ l s, C.step (into l) s = ((A.step l s).1.map into id, (A.step l s).2)
  event : ∀ l s, C.event (into l) s = A.event l s

theorem Returns.embed {A : Code κ τ σ ρ ε} {C : Code κ' τ' σ ρ ε} {into : τ → τ'} {l : τ} {s s' : σ}
    {r : ρ} (returns : Returns A l s r s') (embeds : A.Embeds C into) :
    Returns C (into l) s r s' := by
  induction returns with
  | done stop => exact .done (by simp [embeds.step, stop])
  | next l' s' go _ ih => exact .next _ s' (by simp [embeds.step, go]) ih

theorem Trace.embed {A : Code κ τ σ ρ ε} {C : Code κ' τ' σ ρ ε} {into : τ → τ'} {l : τ} {s s' : σ}
    {events : List ε} {r : ρ} (trace : Trace A l s events r s') (embeds : A.Embeds C into) :
    Trace C (into l) s events r s' := by
  induction trace with
  | done stop =>
    rw [← embeds.event]
    exact .done (by simp [embeds.step, stop])
  | next l' s' go _ ih =>
    rw [← embeds.event]
    exact .next _ s' (by simp [embeds.step, go]) ih

theorem Code.embeds_inl (A : Code κ τ σ ρ ε) (B : Code κ' τ' σ ρ ε) : A.Embeds (A.sum B) .inl :=
  ⟨fun _ _ => rfl, fun _ _ => rfl⟩

theorem Code.embeds_inr (A : Code κ τ σ ρ ε) (B : Code κ' τ' σ ρ ε) : B.Embeds (A.sum B) .inr :=
  ⟨fun _ _ => rfl, fun _ _ => rfl⟩

/-- A lone call of the first code returns in the sum as it does by itself. -/
theorem Code.Calls.inl {A : Code κ τ σ ρ ε} {c : κ} {s s' : σ} {r : ρ}
    (call : A.Calls c s r s') (B : Code κ' τ' σ ρ ε) : (A.sum B).Calls (.inl c) s r s' := by
  unfold Code.Calls at call ⊢
  exact call.embed (A.embeds_inl B)

/-- A lone call of the second code returns in the sum as it does by itself. -/
theorem Code.Calls.inr {B : Code κ' τ' σ ρ ε} {c : κ'} {s s' : σ} {r : ρ}
    (call : B.Calls c s r s') (A : Code κ τ σ ρ ε) : (A.sum B).Calls (.inr c) s r s' := by
  unfold Code.Calls at call ⊢
  exact call.embed (A.embeds_inr B)

/-- A lone call of the first code that returns in the sum returns by itself. -/
theorem Code.Calls.of_inl {A : Code κ τ σ ρ ε} {B : Code κ' τ' σ ρ ε} {c : κ} {s s' : σ} {r : ρ}
    (call : (A.sum B).Calls (.inl c) s r s') : A.Calls c s r s' := by
  have project : ∀ l s r s', Returns (A.sum B) l s r s' → ∀ m, l = .inl m →
      Returns A m s r s' := by
    intro l s r s' returns
    induction returns with
    | @done l s r s' stop =>
      rintro m rfl
      obtain ⟨outcome, rfl⟩ := Prod.mk.inj stop
      cases next : (A.step m s).1 with
      | inl m' => simp [next] at outcome
      | inr r' =>
        obtain rfl : r' = r := by simpa [next] using outcome
        exact .done (Prod.ext next rfl)
    | @next l s r s'' l' s' go _ ih =>
      rintro m rfl
      obtain ⟨outcome, rfl⟩ := Prod.mk.inj go
      cases next : (A.step m s).1 with
      | inl m' => exact .next m' _ (Prod.ext next rfl) (ih m' (by simpa [next] using outcome.symm))
      | inr r' => simp [next] at outcome
  exact project _ _ _ _ call _ rfl

end Sum

/-- Two threads are numbered from 0 on. -/
scoped instance twoThreads : NeZero 2 := ⟨by decide⟩

/-- Three threads are numbered from 0 on. -/
scoped instance threeThreads : NeZero 3 := ⟨by decide⟩

/-- A pool of threads: the shared memory, the local state of every thread that is inside a
call, the log of committed events and the log's length when each call started. -/
structure Pool (ι τ σ ε : Type u) where
  shared : σ
  thread : ι → Option τ
  log : List ε
  /-- Length of the log when the thread's current call started; auxiliary. -/
  birth : ι → Nat

/-- What a scheduler chooses: a thread starts a call, or performs its next access. -/
inductive Action (ι κ : Type u)
  | call (i : ι) (c : κ)
  | access (i : ι)

variable [DecidableEq ι]

/-- Nothing has been called yet. -/
def Pool.fresh (s : σ) : Pool ι τ σ ε := ⟨s, fun _ => none, [], fun _ => 0⟩

/-- The pool after a scheduler's choice; a thread inside a call starts no other, and a
thread outside a call has no access to perform. -/
def Pool.act (code : Code κ τ σ ρ ε) (p : Pool ι τ σ ε) : Action ι κ → Option (Pool ι τ σ ε)
  | .call i c =>
    match p.thread i with
    | none => some { p with
        thread := Function.update p.thread i (some (code.start c))
        birth := Function.update p.birth i p.log.length }
    | some _ => none
  | .access i =>
    match p.thread i with
    | none => none
    | some l => some { p with
        shared := (code.step l p.shared).2
        thread := Function.update p.thread i (code.step l p.shared).1.getLeft?
        log := p.log ++ (code.event l p.shared).toList }

/-- The events committed while the thread's current call has been running. -/
def Pool.inFlight (p : Pool ι τ σ ε) (i : ι) : List ε := p.log.drop (p.birth i)

/-- No thread is inside a call. -/
def Pool.Quiet (p : Pool ι τ σ ε) : Prop := ∀ i, p.thread i = none

/-- The two things a scheduler's choice can do, with everything it changes. -/
theorem Pool.act_cases {code : Code κ τ σ ρ ε} {p p' : Pool ι τ σ ε} {a : Action ι κ}
    (acted : p.act code a = some p') :
    (∃ i c, a = .call i c ∧ p.thread i = none ∧
      p' = { p with
        thread := Function.update p.thread i (some (code.start c))
        birth := Function.update p.birth i p.log.length }) ∨
    (∃ i l, a = .access i ∧ p.thread i = some l ∧
      p' = { p with
        shared := (code.step l p.shared).2
        thread := Function.update p.thread i (code.step l p.shared).1.getLeft?
        log := p.log ++ (code.event l p.shared).toList }) := by
  cases a with
  | call i c =>
    cases idle : p.thread i with
    | none => exact .inl ⟨i, c, rfl, idle, by simpa [act, idle] using acted.symm⟩
    | some l => simp [act, idle] at acted
  | access i =>
    cases inside : p.thread i with
    | none => simp [act, inside] at acted
    | some l => exact .inr ⟨i, l, rfl, inside, by simpa [act, inside] using acted.symm⟩

/-- The pools reachable by choices that are allowed in the pool they are made in. -/
inductive Reach (code : Code κ τ σ ρ ε) (allowed : Pool ι τ σ ε → Action ι κ → Prop)
    (p₀ : Pool ι τ σ ε) : Pool ι τ σ ε → Prop
  | init : Reach code allowed p₀ p₀
  | step {p a p'} : Reach code allowed p₀ p → allowed p a → p.act code a = some p' →
      Reach code allowed p₀ p'

/-- Every interleaving is allowed. -/
def anyAction (_ : Pool ι τ σ ε) (_ : Action ι κ) : Bool := true

/-- An invariant kept by every allowed choice holds in every reachable pool. -/
theorem Reach.invariant {code : Code κ τ σ ρ ε} {allowed : Pool ι τ σ ε → Action ι κ → Prop}
    {p₀ p : Pool ι τ σ ε} {P : Pool ι τ σ ε → Prop} (reach : Reach code allowed p₀ p)
    (holds : P p₀)
    (keeps : ∀ p a p', P p → allowed p a → p.act code a = some p' → P p') : P p := by
  induction reach with
  | init => exact holds
  | step _ may acted ih => exact keeps _ _ _ ih may acted

theorem Reach.trans {code : Code κ τ σ ρ ε} {allowed : Pool ι τ σ ε → Action ι κ → Prop}
    {p₀ p₁ p₂ : Pool ι τ σ ε} (first : Reach code allowed p₀ p₁)
    (second : Reach code allowed p₁ p₂) : Reach code allowed p₀ p₂ := by
  induction second with
  | init => exact first
  | step _ may acted ih => exact ih.step may acted

/-- A thread inside a call runs it to its end while the others pause. -/
theorem Reach.of_trace {code : Code κ τ σ ρ ε} {allowed : Pool ι τ σ ε → Action ι κ → Prop}
    {p₀ p : Pool ι τ σ ε} {i : ι} {l : τ} {s s' : σ} {events : List ε} {r : ρ}
    (trace : Trace code l s events r s') (reach : Reach code allowed p₀ p)
    (inside : p.thread i = some l) (memory : p.shared = s)
    (may : ∀ q committed, committed <+: events → q.birth = p.birth →
      q.log = p.log ++ committed → allowed q (.access i)) :
    Reach code allowed p₀
      ⟨s', Function.update p.thread i none, p.log ++ events, p.birth⟩ := by
  induction trace generalizing p with
  | done stop =>
    refine reach.step (may p [] (List.nil_prefix) rfl (by simp)) ?_
    simp [Pool.act, inside, memory, stop]
  | @next l s events r s'' l' s' go _ ih =>
    have first : p.act code (.access i) = some ⟨s', Function.update p.thread i (some l'),
        p.log ++ (code.event l s).toList, p.birth⟩ := by
      simp [Pool.act, inside, memory, go]
    have rest := ih (reach.step (may p [] (List.nil_prefix) rfl (by simp)) first)
      (Function.update_self i _ _) rfl ?_
    · simpa using rest
    · intro q committed begins birth grown
      refine may q ((code.event l s).toList ++ committed) ?_ birth ?_
      · exact (List.prefix_append_right_inj _).mpr begins
      · rw [grown, List.append_assoc]

/-- The pool after thread `i` has run a complete call alone. -/
def Pool.afterCall (p : Pool ι τ σ ε) (i : ι) (s : σ) (events : List ε) : Pool ι τ σ ε :=
  ⟨s, p.thread, p.log ++ events, Function.update p.birth i p.log.length⟩

/-- A call in flight sees the events of a complete call of another thread. -/
theorem Pool.inFlight_afterCall {p : Pool ι τ σ ε} {i j : ι} (other : j ≠ i)
    (started : p.birth j ≤ p.log.length) (s : σ) (events : List ε) :
    (p.afterCall i s events).inFlight j = p.inFlight j ++ events := by
  simp only [inFlight, afterCall, Function.update_of_ne other,
    List.drop_append_of_le_length started]

/-- A thread outside a call makes one and runs it to its end while the others pause. -/
theorem Reach.call {code : Code κ τ σ ρ ε} {allowed : Pool ι τ σ ε → Action ι κ → Prop}
    {p₀ p : Pool ι τ σ ε} {i : ι} {c : κ} {s' : σ} {events : List ε} {r : ρ}
    (reach : Reach code allowed p₀ p) (idle : p.thread i = none)
    (trace : Trace code (code.start c) p.shared events r s') (mayCall : allowed p (.call i c))
    (may : ∀ q committed, committed <+: events → q.inFlight i = committed →
      allowed q (.access i)) :
    Reach code allowed p₀ (p.afterCall i s' events) := by
  have called : p.act code (.call i c) = some ⟨p.shared,
      Function.update p.thread i (some (code.start c)), p.log,
      Function.update p.birth i p.log.length⟩ := by
    simp [Pool.act, idle]
  have done := Reach.of_trace trace (reach.step mayCall called) (Function.update_self i _ _) rfl ?_
  · simpa [Pool.afterCall, ← idle] using done
  · intro q committed begins birth grown
    apply may q committed begins
    simp [Pool.inFlight, grown, birth]

/-- A schedule: choices made one after another, each only where the guard admits it. -/
def Pool.exec (code : Code κ τ σ ρ ε) (guard : Pool ι τ σ ε → Action ι κ → Bool)
    (p : Pool ι τ σ ε) : List (Action ι κ) → Option (Pool ι τ σ ε)
  | [] => some p
  | a :: rest =>
    if guard p a then (p.act code a).bind fun p' => p'.exec code guard rest else none

/-- A schedule that can be executed reaches its last pool. -/
theorem Pool.exec_reach {code : Code κ τ σ ρ ε} {guard : Pool ι τ σ ε → Action ι κ → Bool}
    {schedule : List (Action ι κ)} {p p' : Pool ι τ σ ε}
    (run : p.exec code guard schedule = some p') :
    Reach code (fun p a => guard p a) p p' := by
  induction schedule generalizing p with
  | nil =>
    obtain rfl := Option.some.inj run
    exact .init
  | cons a rest ih =>
    unfold exec at run
    split at run
    · rename_i may
      cases acted : p.act code a with
      | none => simp [acted] at run
      | some q =>
        have first : Reach code (fun p a => guard p a) p q := Reach.init.step may acted
        exact first.trans (ih (by simpa [acted] using run))
    · contradiction

/-- A schedule that runs through to a pool that passes a check reaches such a pool. -/
theorem Pool.exec_reaches (code : Code κ τ σ ρ ε) (guard : Pool ι τ σ ε → Action ι κ → Bool)
    (p : Pool ι τ σ ε) (schedule : List (Action ι κ)) (check : Pool ι τ σ ε → Prop)
    [DecidablePred check]
    (passes : (p.exec code guard schedule).any (fun q => decide (check q)) = true) :
    ∃ q, Reach code (fun p a => guard p a) p q ∧ check q := by
  obtain ⟨q, run, holds⟩ := (Option.any_eq_true _ _).mp passes
  exact ⟨q, exec_reach run, of_decide_eq_true holds⟩

section RelyGuarantee

variable {γ : Type*} (Shared : γ → σ → List ε → Prop) (Local : γ → ι → Nat → Option τ → Prop)

/-- The invariant of the proof rule: some ghost value fits the memory and the log, and
every thread's assertion holds of it. -/
def Annotated (p : Pool ι τ σ ε) : Prop :=
  ∃ g, Shared g p.shared p.log ∧ ∀ i, Local g i (p.birth i) (p.thread i)

/-- Rely and guarantee. `Guar i g g'` is what a step of thread `i` may do to the ghost
value: every other thread's assertion survives it, and a step of `i` from a pool where the
assertions hold finds a ghost value within it. -/
theorem Reach.relyGuarantee {code : Code κ τ σ ρ ε}
    {allowed : Pool ι τ σ ε → Action ι κ → Prop} {p₀ p : Pool ι τ σ ε}
    (Guar : ι → γ → γ → Prop) (reach : Reach code allowed p₀ p)
    (init : Annotated Shared Local p₀)
    (stable : ∀ i j g g' b l, i ≠ j → Guar j g g' → Local g i b l → Local g' i b l)
    (call : ∀ (g : γ) (p : Pool ι τ σ ε) (i : ι) (c : κ), allowed p (.call i c) →
      p.thread i = none → Shared g p.shared p.log → Local g i (p.birth i) none →
      ∃ g', Guar i g g' ∧ Shared g' p.shared p.log ∧
        Local g' i p.log.length (some (code.start c)))
    (access : ∀ (g : γ) (p : Pool ι τ σ ε) (i : ι) (l : τ), allowed p (.access i) →
      p.thread i = some l → Shared g p.shared p.log → Local g i (p.birth i) (some l) →
      ∃ g', Guar i g g' ∧
        Shared g' (code.step l p.shared).2 (p.log ++ (code.event l p.shared).toList) ∧
        Local g' i (p.birth i) (code.step l p.shared).1.getLeft?) :
    Annotated Shared Local p := by
  refine reach.invariant init ?_
  rintro p a p' ⟨g, shared, locals⟩ may acted
  obtain ⟨i, c, rfl, idle, rfl⟩ | ⟨i, l, rfl, inside, rfl⟩ := Pool.act_cases acted
  · obtain ⟨g', guar, shared', here⟩ := call g p i c may idle shared (idle ▸ locals i)
    refine ⟨g', shared', fun j => ?_⟩
    by_cases same : j = i
    · subst same
      simpa using here
    · simpa [Function.update_of_ne same] using stable j i g g' _ _ same guar (locals j)
  · obtain ⟨g', guar, shared', here⟩ := access g p i l may inside shared (inside ▸ locals i)
    refine ⟨g', shared', fun j => ?_⟩
    by_cases same : j = i
    · subst same
      simpa using here
    · simpa [Function.update_of_ne same] using stable j i g g' _ _ same guar (locals j)

end RelyGuarantee

section Tally

/-- Only accesses: no further call starts. -/
def accessOnly (_ : Pool ι τ σ ε) : Action ι κ → Bool
  | .access _ => true
  | .call _ _ => false

/-- The weights of the local states of the threads inside a call, added up. -/
noncomputable def tally (w : τ → Nat) (thread : ι → Option τ) : Nat :=
  ∑ᶠ i, (thread i).elim 0 w

omit [DecidableEq ι] in
theorem tally_eq_sum (w : τ → Nat) {thread : ι → Option τ} {s : Finset ι}
    (outside : ∀ i, i ∉ s → thread i = none) :
    tally w thread = ∑ i ∈ s, (thread i).elim 0 w := by
  apply finsum_eq_sum_of_support_subset
  intro i weighs
  by_contra absent
  simp [outside i absent] at weighs

/-- When one thread moves, its new weight replaces its old one. -/
theorem tally_update (w : τ → Nat) {thread : ι → Option τ}
    (busy : {i | thread i ≠ none}.Finite) (i : ι) (l : Option τ) :
    tally w (Function.update thread i l) + (thread i).elim 0 w =
      tally w thread + l.elim 0 w := by
  have outside (j : ι) (absent : j ∉ insert i busy.toFinset) : j ≠ i ∧ thread j = none := by
    simpa using absent
  rw [tally_eq_sum w fun j absent => (outside j absent).2,
    tally_eq_sum w fun j absent => by
      rw [Function.update_of_ne (outside j absent).1, (outside j absent).2],
    ← Finset.add_sum_erase _ _ (Finset.mem_insert_self i _),
    ← Finset.add_sum_erase _ (fun j => (thread j).elim 0 w) (Finset.mem_insert_self i _)]
  have others : ∑ j ∈ (insert i busy.toFinset).erase i,
        (Function.update thread i l j).elim 0 w =
      ∑ j ∈ (insert i busy.toFinset).erase i, (thread j).elim 0 w := by
    apply Finset.sum_congr rfl
    intro j member
    rw [Function.update_of_ne (Finset.ne_of_mem_erase member)]
  rw [others, Function.update_self]
  omega

omit [DecidableEq ι] in
theorem le_tally (w : τ → Nat) {thread : ι → Option τ}
    (busy : {i | thread i ≠ none}.Finite) {i : ι} {l : τ} (inside : thread i = some l) :
    w l ≤ tally w thread := by
  have member : i ∈ busy.toFinset := by simp [inside]
  rw [tally_eq_sum w (s := busy.toFinset) (by simp)]
  simpa [inside] using Finset.single_le_sum (fun j _ => Nat.zero_le ((thread j).elim 0 w)) member

omit [DecidableEq ι] in
theorem tally_eq_zero {w : τ → Nat} {thread : ι → Option τ}
    (weightless : ∀ i l, thread i = some l → w l = 0) : tally w thread = 0 := by
  apply finsum_eq_zero_of_forall_eq_zero
  intro i
  cases inside : thread i with
  | none => rfl
  | some l => exact weightless i l inside

omit [DecidableEq ι] in
theorem Pool.Quiet.tally_eq (w : τ → Nat) {p : Pool ι τ σ ε} (quiet : p.Quiet) :
    tally w p.thread = 0 := by
  apply tally_eq_zero
  intro i l inside
  simp [quiet i] at inside

/-- A choice moves one thread, so finitely many stay inside a call. -/
theorem Pool.act_busy {code : Code κ τ σ ρ ε} {p p' : Pool ι τ σ ε} {a : Action ι κ}
    (busy : {i | p.thread i ≠ none}.Finite) (acted : p.act code a = some p') :
    {i | p'.thread i ≠ none}.Finite := by
  have moved (i : ι) (l : Option τ) :
      {j | Function.update p.thread i l j ≠ none} ⊆ insert i {j | p.thread j ≠ none} := by
    intro j inside
    by_cases same : j = i
    · exact .inl same
    · exact .inr (by simpa [Function.update_of_ne same] using inside)
  obtain ⟨i, c, rfl, idle, rfl⟩ | ⟨i, l, rfl, inside, rfl⟩ := Pool.act_cases acted
  · exact (busy.insert i).subset (moved i _)
  · exact (busy.insert i).subset (moved i _)

/-- Where every access lowers a rank, the threads inside a call can all be run to its end. -/
theorem Pool.finishes {code : Code κ τ σ ρ ε} (rank : τ → Nat)
    (lowers : ∀ l s l', (code.step l s).1 = .inl l' → rank l' < rank l)
    (p : Pool ι τ σ ε) (busy : {i | p.thread i ≠ none}.Finite) :
    ∃ q, Reach code (fun p a => accessOnly p a) p q ∧ q.Quiet := by
  -- induction on the sum of the ranks, each raised by one for the access that returns
  induction total : tally (fun l => rank l + 1) p.thread using Nat.strong_induction_on
    generalizing p with
  | _ n ih =>
    subst total
    by_cases quiet : p.Quiet
    · exact ⟨p, .init, quiet⟩
    obtain ⟨i, inside⟩ := not_forall.mp quiet
    obtain ⟨l, at_l⟩ := Option.ne_none_iff_exists'.mp inside
    cases acted : p.act code (.access i) with
    | none => simp [act, at_l] at acted
    | some p' =>
      have grown := tally_update (fun l => rank l + 1) busy i
        (code.step l p.shared).1.getLeft?
      have lower : ((code.step l p.shared).1.getLeft?).elim 0 (fun l => rank l + 1) <
          rank l + 1 := by
        cases next : (code.step l p.shared).1 with
        | inl l' => simpa using lowers l p.shared l' next
        | inr r => simp
      have shape : p'.thread = Function.update p.thread i (code.step l p.shared).1.getLeft? := by
        obtain ⟨_, _, same, _⟩ | ⟨j, m, same, at_m, rfl⟩ := Pool.act_cases acted
        · cases same
        · cases same
          rw [at_l] at at_m
          cases at_m
          rfl
      rw [at_l, ← shape] at grown
      obtain ⟨q, reach, done⟩ := ih (tally (fun l => rank l + 1) p'.thread)
        (by simp only [Option.elim_some] at grown; omega) p' (Pool.act_busy busy acted) rfl
      exact ⟨q, (Reach.init.step rfl acted).trans reach, done⟩

end Tally

end Dmm.Machine
