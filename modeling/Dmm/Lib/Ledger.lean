import Mathlib

/-!
# Ledgers of things taken and given back

A log of events, some of which take a thing and some of which give one back. `Owes` says which
things are out: what was taken is what was given back together with these, and nothing was taken
twice. A log that owes nothing has given back each thing exactly once.
-/

namespace Dmm.Ledger

universe u v w

variable {ε : Type u} {κ : Type v} {ι : Type w} {taken given : ε → Option κ} {key : κ → ι}
  {log more : List ε} {held : List κ} {x : κ} {e : ε}

/-- What was taken was given back or is out. A thing may be taken again after it was given
back. -/
def Balanced (taken given : ε → Option κ) (log : List ε) (held : List κ) : Prop :=
  (log.filterMap taken).Perm (log.filterMap given ++ held)

theorem balanced_nil :
    Balanced taken given log [] ↔ (log.filterMap taken).Perm (log.filterMap given) := by
  rw [Balanced, List.append_nil]

theorem Balanced.take (balanced : Balanced taken given log held)
    (keeps : more.filterMap given = []) :
    Balanced taken given (log ++ more) (held ++ more.filterMap taken) := by
  unfold Balanced
  rw [List.filterMap_append, List.filterMap_append, keeps, List.append_nil, ← List.append_assoc]
  exact balanced.append_right _

theorem Balanced.give (balanced : Balanced taken given log (more.filterMap given ++ held))
    (keeps : more.filterMap taken = []) : Balanced taken given (log ++ more) held := by
  unfold Balanced
  rw [List.filterMap_append, List.filterMap_append, keeps, List.append_nil, List.append_assoc]
  exact balanced

theorem Balanced.perm {held' : List κ} (balanced : Balanced taken given log held)
    (same : held.Perm held') : Balanced taken given log held' :=
  balanced.trans (same.append_left _)

theorem Balanced.unique {held' : List κ} (balanced : Balanced taken given log held)
    (other : Balanced taken given log held') : held.Perm held' :=
  (List.perm_append_left_iff _).mp (balanced.symm.trans other)

/-- The things that are out after a log. -/
structure Owes (taken given : ε → Option κ) (key : κ → ι) (log : List ε) (held : List κ) :
    Prop where
  balance : Balanced taken given log held
  distinct : ((log.filterMap taken).map key).Nodup

theorem Owes.take (owes : Owes taken given key log held) (takes : taken e = some x)
    (keeps : given e = none) (fresh : key x ∉ (log.filterMap taken).map key) :
    Owes taken given key (log ++ [e]) (x :: held) where
  balance := by
    have more : Balanced taken given (log ++ [e]) (held ++ [e].filterMap taken) :=
      owes.balance.take (by simp [keeps])
    have one : [e].filterMap taken = [x] := by simp [takes]
    rw [one] at more
    exact more.perm List.perm_append_comm
  distinct := by
    simp only [List.filterMap_append, List.filterMap_cons, takes, List.filterMap_nil,
      List.map_append, List.map_cons, List.map_nil]
    rw [List.nodup_append_comm]
    exact List.nodup_cons.mpr ⟨fresh, owes.distinct⟩

theorem Owes.give (owes : Owes taken given key log (x :: held)) (gives : given e = some x)
    (keeps : taken e = none) : Owes taken given key (log ++ [e]) held where
  balance := by
    have one : [e].filterMap given = [x] := by simp [gives]
    have out : Balanced taken given log ([e].filterMap given ++ held) := by
      rw [one]
      exact owes.balance
    exact out.give (by simp [keeps])
  distinct := by
    simp only [List.filterMap_append, List.filterMap_cons, keeps, List.filterMap_nil,
      List.append_nil]
    exact owes.distinct

theorem Owes.pass (owes : Owes taken given key log held)
    (quiet : ∀ e ∈ more, taken e = none ∧ given e = none) :
    Owes taken given key (log ++ more) held := by
  have taking : more.filterMap taken = [] :=
    List.filterMap_eq_nil_iff.mpr fun e mem => (quiet e mem).1
  have giving : more.filterMap given = [] :=
    List.filterMap_eq_nil_iff.mpr fun e mem => (quiet e mem).2
  constructor
  · have same := owes.balance.take giving
    rwa [taking, List.append_nil] at same
  · simp only [List.filterMap_append, taking, List.append_nil]
    exact owes.distinct

theorem Owes.perm {held' : List κ} (owes : Owes taken given key log held)
    (same : held.Perm held') : Owes taken given key log held' :=
  ⟨owes.balance.perm same, owes.distinct⟩

/-- What is out is determined up to its order: something out now is out in any account. -/
theorem Owes.ne_nil (owes : Owes taken given key log (x :: held)) :
    ¬ Owes taken given key log [] := by
  intro settled
  have count := (owes.balance.unique settled.balance).length_eq
  simp at count

end Dmm.Ledger
