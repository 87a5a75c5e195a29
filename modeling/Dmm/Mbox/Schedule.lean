import Mathlib

/-!
# Sharing out the messages of a round

The stack thread takes its messages from four boxes, each up to a budget. Within a call a box gets
what the boxes before it have left over; between calls the budgets follow what was taken. All of
it is unsigned 32-bit arithmetic. That no budget wraps or reaches 0 is one invariant (`Shares`).
-/

namespace Dmm.Mbox

/-- The boxes, in the order in which a round reads them. -/
inductive Box
  | highest
  | medium
  | primary
  | lowest
  deriving DecidableEq

/-- A sum of `u32`. -/
def add32 (a b : Nat) : Nat := (a + b) % 2 ^ 32

/-- A difference of `u32`. -/
def sub32 (a b : Nat) : Nat := (((a : Int) - b) % 2 ^ 32).toNat

/-- `g_highestMboxNum`, `g_mediumMboxNum`, `g_primaryMboxNum` and `g_lowestMboxNum` -/
structure Budgets where
  highest : Nat
  medium : Nat
  primary : Nat
  lowest : Nat
  deriving DecidableEq

/-- Their initial values. -/
def Budgets.initial : Budgets := ⟨12, 8, 8, 4⟩

/-- The variables of a call of `priority_sched_mbox`, and the global budgets. -/
structure Call where
  budgets : Budgets
  highest : Nat
  medium : Nat
  primary : Nat
  lowest : Nat
  totalNum : Nat

/-- The start of a call: the budgets are set anew if they do not add up to `n`. -/
def Call.start (n : Nat) (g : Budgets) : Call :=
  let g := if add32 (add32 (add32 g.highest g.medium) g.primary) g.lowest ≠ n then
      ⟨sub32 (sub32 (sub32 n (n >>> 2)) (n >>> 2)) (n >>> 3), n >>> 2, n >>> 2, n >>> 3⟩
    else g
  ⟨g, g.highest, g.medium, g.primary, g.lowest, 0⟩

/-- How many messages the call asks a box for. -/
def Call.request (c : Call) : Box → Nat
  | .highest => c.highest
  | .medium => c.medium
  | .primary => c.primary
  | .lowest => c.lowest

/-- The budget of a box for the next call. -/
def adapt (old num share : Nat) : Nat := if num = 0 then 1 else if num < old then num else share

/-- What the call does with the number of messages taken from a box. -/
def Call.took (n : Nat) (c : Call) (num : Nat) : Box → Call
  | .highest =>
    let temp := sub32 c.highest num
    { c with
      totalNum := add32 c.totalNum num
      primary := add32 c.primary (temp >>> 1)
      medium := add32 c.medium (sub32 temp (temp >>> 1)) }
  | .medium =>
    let new := adapt c.budgets.medium num (n >>> 2)
    { c with
      totalNum := add32 c.totalNum num
      primary := add32 c.primary (sub32 c.medium num)
      budgets := { c.budgets with
        medium := new
        highest := add32 c.budgets.highest (sub32 c.budgets.medium new) } }
  | .primary =>
    let new := adapt c.budgets.primary num (n >>> 2)
    let lowest := add32 c.lowest (sub32 c.primary num)
    let totalNum := add32 c.totalNum num
    { c with
      totalNum
      lowest := if lowest > sub32 n totalNum then sub32 n totalNum else lowest
      budgets := { c.budgets with
        primary := new
        highest := add32 c.budgets.highest (sub32 c.budgets.primary new) } }
  | .lowest =>
    let new := adapt c.budgets.lowest num (n >>> 3)
    { c with
      totalNum := add32 c.totalNum num
      budgets := { c.budgets with
        lowest := new
        highest := add32 c.budgets.highest (sub32 c.budgets.lowest new) } }

/-- One read of a ring, which returns what is asked for or what there is; the test after it that
there is not more. -/
def Call.num (c : Call) (b : Box) (pending : Nat) : Nat :=
  let num := min (c.request b) pending
  if num > c.request b then c.request b else num

/-- A box is read: what is taken is stored at `box + totalNum`. -/
def Call.read (n : Nat) (pending : Box → Nat) (c : Call) (b : Box) : Call :=
  c.took n (c.num b (pending b)) b

/-- The call when a box is read, the reads before it done. `pending` is what each box holds when it
is read, which is at least what it held when the call started. -/
def Call.at (n : Nat) (pending : Box → Nat) (g : Budgets) : Box → Call
  | .highest => Call.start n g
  | .medium => (Call.start n g).read n pending .highest
  | .primary => ((Call.start n g).read n pending .highest).read n pending .medium
  | .lowest => (((Call.start n g).read n pending .highest).read n pending .medium).read n pending
      .primary

/-- The budgets add up to `n`, and none but the highest is above its share. -/
structure Budgets.Shares (n : Nat) (g : Budgets) : Prop where
  sum : g.highest + g.medium + g.primary + g.lowest = n
  medium : 1 ≤ g.medium ∧ g.medium ≤ n / 4
  primary : 1 ≤ g.primary ∧ g.primary ≤ n / 4
  lowest : 1 ≤ g.lowest ∧ g.lowest ≤ n / 8

/-- A call whose reads before the box `b` are done: what it has taken and the budgets of the
boxes left add up to `n`. -/
def Call.Fits (n : Nat) (c : Call) (b : Box) : Prop :=
  c.budgets.Shares n ∧ 1 ≤ c.lowest ∧ match b with
    | .highest => 1 ≤ c.highest ∧ 1 ≤ c.medium ∧ 1 ≤ c.primary ∧
        c.totalNum + c.highest + c.medium + c.primary + c.lowest = n
    | .medium => 1 ≤ c.medium ∧ 1 ≤ c.primary ∧ c.totalNum + c.medium + c.primary + c.lowest = n
    | .primary => 1 ≤ c.primary ∧ c.totalNum + c.primary + c.lowest = n
    | .lowest => c.totalNum + c.lowest = n

variable {n num : Nat} {g : Budgets} {c : Call}

theorem Call.num_eq (c : Call) (b : Box) (pending : Nat) :
    c.num b pending = min (c.request b) pending := by
  unfold Call.num
  grind

theorem Call.num_le (c : Call) (b : Box) (pending : Nat) : c.num b pending ≤ c.request b :=
  (c.num_eq b pending).trans_le (Nat.min_le_left ..)

theorem Budgets.Shares.highest (shares : g.Shares n) (large : 8 ≤ n) : 1 ≤ g.highest := by
  obtain ⟨sum, medium, primary, lowest⟩ := shares
  omega

theorem add32_of_lt {a b : Nat} (fits : a + b < 2 ^ 32) : add32 a b = a + b := Nat.mod_eq_of_lt fits

theorem sub32_of_le {a b : Nat} (below : b ≤ a) (fits : a < 2 ^ 32) : sub32 a b = a - b := by
  unfold sub32
  omega

theorem add32_sub32 {a b d : Nat} (below : d ≤ a + b) (fits : a + b < 2 ^ 32) :
    add32 a (sub32 b d) = a + b - d := by
  unfold add32 sub32
  omega

/-- The next budget of a box is positive and at most its share; the highest budget gets the
difference. -/
theorem adapt_bounds {old share : Nat} (num high : Nat) (positive : 1 ≤ old) (below : old ≤ share)
    (fits : high + old < 2 ^ 32) (room : share < high + old) :
    1 ≤ adapt old num share ∧ adapt old num share ≤ share ∧
      add32 high (sub32 old (adapt old num share)) + adapt old num share = high + old := by
  have bounds : 1 ≤ adapt old num share ∧ adapt old num share ≤ share := by
    unfold adapt
    grind
  rw [add32_sub32 (by omega) fits]
  omega

theorem shiftRight_two (n : Nat) : n >>> 2 = n / 4 := Nat.shiftRight_eq_div_pow n 2

theorem shiftRight_three (n : Nat) : n >>> 3 = n / 8 := Nat.shiftRight_eq_div_pow n 3

section Bounds

variable (large : 8 ≤ n) (word : n < 2 ^ 32)

include large word

/-- A call starts with budgets that are shares. -/
theorem fits_start (before : g = .initial ∨ g.Shares n) :
    (Call.start n g).totalNum = 0 ∧ (Call.start n g).Fits n .highest := by
  have shares : (Call.start n g).budgets.Shares n := by
    unfold Call.start
    dsimp only
    split
    · rw [shiftRight_two, shiftRight_three]
      have first : sub32 n (n / 4) = n - n / 4 := sub32_of_le (by omega) word
      have second : sub32 (n - n / 4) (n / 4) = n - n / 4 - n / 4 :=
        sub32_of_le (by omega) (by omega)
      rw [first, second, sub32_of_le (by omega) (by omega)]
      constructor <;> dsimp only <;> omega
    · rename_i same
      obtain rfl | shares := before
      · have : n = 32 := by
          simp only [Budgets.initial, add32] at same
          omega
        subst this
        constructor <;> decide
      · exact shares
  have ⟨sum, medium, primary, lowest⟩ := shares
  refine ⟨rfl, shares, ?_⟩
  simp only [Call.start] at sum medium primary lowest ⊢
  omega

/-- Reading the highest box leaves its rest to the next two. -/
theorem fits_tookHighest (fits : c.Fits n .highest) (few : num ≤ c.highest) :
    (c.took n num .highest).Fits n .medium := by
  simp only [Call.Fits] at fits
  obtain ⟨shares, fits⟩ := fits
  have rest : sub32 c.highest num = c.highest - num := sub32_of_le few (by omega)
  have half := Nat.shiftRight_le (c.highest - num) 1
  simp only [Call.Fits, Call.took]
  refine ⟨shares, ?_⟩
  rw [rest]
  generalize (c.highest - num) >>> 1 = a at *
  have other : sub32 (c.highest - num) a = c.highest - num - a := sub32_of_le half (by omega)
  rw [other, add32_of_lt (a := c.medium) (by omega), add32_of_lt (a := c.primary) (by omega),
    add32_of_lt (by omega)]
  omega

/-- Reading the medium box leaves its rest to the primary box. -/
theorem fits_tookMedium (fits : c.Fits n .medium) (few : num ≤ c.medium) :
    (c.took n num .medium).Fits n .primary := by
  simp only [Call.Fits] at fits
  obtain ⟨⟨sum, medium, primary, lowest⟩, fits⟩ := fits
  have ⟨positive, below, total⟩ := adapt_bounds num c.budgets.highest medium.1 medium.2 (by omega)
    (by omega)
  simp only [Call.Fits, Call.took, shiftRight_two]
  constructor
  · constructor <;> dsimp only <;> omega
  · rw [sub32_of_le few (by omega), add32_of_lt (by omega), add32_of_lt (by omega)]
    omega

/-- Reading the primary box leaves its rest to the lowest box. -/
theorem fits_tookPrimary (fits : c.Fits n .primary) (few : num ≤ c.primary) :
    (c.took n num .primary).Fits n .lowest := by
  simp only [Call.Fits] at fits
  obtain ⟨⟨sum, medium, primary, lowest⟩, fits⟩ := fits
  have ⟨positive, below, total⟩ := adapt_bounds num c.budgets.highest primary.1 primary.2 (by omega)
    (by omega)
  simp only [Call.Fits, Call.took, shiftRight_two]
  constructor
  · constructor <;> dsimp only <;> omega
  · rw [sub32_of_le few (by omega), add32_of_lt (by omega), add32_of_lt (by omega),
      sub32_of_le (by omega) word]
    split <;> omega

theorem fits_tookLowest (fits : c.Fits n .lowest) (few : num ≤ c.lowest) :
    (c.took n num .lowest).budgets.Shares n ∧ (c.took n num .lowest).totalNum ≤ n := by
  simp only [Call.Fits] at fits
  obtain ⟨⟨sum, medium, primary, lowest⟩, fits⟩ := fits
  have ⟨positive, below, total⟩ := adapt_bounds num c.budgets.highest lowest.1 lowest.2 (by omega)
    (by omega)
  simp only [Call.took, shiftRight_three]
  constructor
  · constructor <;> dsimp only <;> omega
  · rw [add32_of_lt (by omega)]
    omega

end Bounds

end Dmm.Mbox
