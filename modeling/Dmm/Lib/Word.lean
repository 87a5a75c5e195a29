import Mathlib

/-!
# Machine words

A free-running index counts positions without bound and is stored modulo 2³². The
position is a natural number; `word` is what the machine holds of it. The lemmas carry
the machine operations on words (successor, difference, the "behind" test against half
the range, masking by a power of two) back to the positions, for positions that are
closer to each other than the range of a word. A window of `m` consecutive positions has
exactly one position for each remainder by `m`, which is how positions share slots. `int32`
is the wrapped result of signed 32-bit arithmetic.
-/

namespace Dmm.Word

/-- The 32-bit word that holds a free-running position. -/
def word (position : Nat) : UInt32 := UInt32.ofNat position

theorem toNat_word (p : Nat) : (word p).toNat = p % 2 ^ 32 := UInt32.toNat_ofNat'

theorem toNat_word_of_lt {p : Nat} (small : p < 2 ^ 32) : (word p).toNat = p := by
  rw [toNat_word, Nat.mod_eq_of_lt small]

@[simp] theorem word_toNat (w : UInt32) : word w.toNat = w := UInt32.ofNat_toNat

@[simp] theorem word_succ (p : Nat) : word p + 1 = word (p + 1) := by
  simp [word]

theorem word_add (p q : Nat) : word p + word q = word (p + q) := by
  simp [word]

/-- Subtracting an earlier position from a later one gives the word of the distance. -/
theorem word_sub {p q : Nat} (ordered : q ≤ p) : word p - word q = word (p - q) := by
  simp [word, UInt32.ofNat_sub ordered]

theorem toNat_word_sub {p q : Nat} (ordered : q ≤ p) (near : p < q + 2 ^ 32) :
    (word p - word q).toNat = p - q := by
  rw [word_sub ordered, toNat_word_of_lt (by omega)]

/-- The difference of two words, whatever the order of the positions. -/
theorem toNat_word_sub_eq (p q : Nat) :
    (word p - word q).toNat = (2 ^ 32 - q % 2 ^ 32 + p % 2 ^ 32) % 2 ^ 32 := by
  rw [UInt32.toNat_sub, toNat_word, toNat_word]

/-- Words of nearby positions are equal only when the positions are. -/
theorem word_inj {p q : Nat} (above : p < q + 2 ^ 32) (below : q < p + 2 ^ 32) :
    word p = word q ↔ p = q := by
  constructor
  · intro same
    have residues := congrArg UInt32.toNat same
    rw [toNat_word, toNat_word] at residues
    omega
  · rintro rfl
    rfl

/-- The difference of nearby words vanishes only when the positions agree. -/
theorem word_sub_eq_zero {p q : Nat} (above : p < q + 2 ^ 32) (below : q < p + 2 ^ 32) :
    word p - word q = 0 ↔ p = q := by
  rw [← word_inj above below, ← UInt32.toNat_inj, ← UInt32.toNat_inj, toNat_word_sub_eq,
    toNat_word, toNat_word, UInt32.toNat_zero]
  omega

/-- A difference in the upper half of the range means that the first position is behind. -/
theorem word_behind {p q : Nat} (above : p < q + 2 ^ 31) (below : q < p + 2 ^ 31) :
    0x80000000 < word p - word q ↔ p < q := by
  rw [UInt32.lt_iff_toNat_lt, toNat_word_sub_eq, show (0x80000000 : UInt32).toNat = 2 ^ 31 from rfl]
  omega

/-- Masking by a power of two less one is the remainder by that power. -/
theorem toNat_and_word (p : Nat) {k : Nat} (fits : k ≤ 32) :
    (word p &&& word (2 ^ k - 1)).toNat = p % 2 ^ k := by
  have bound : 2 ^ k ≤ 2 ^ 32 := Nat.pow_le_pow_right (by decide) fits
  have positive := Nat.two_pow_pos k
  rw [UInt32.toNat_and, toNat_word_of_lt (by omega : 2 ^ k - 1 < 2 ^ 32),
    Nat.and_two_pow_sub_one_eq_mod, toNat_word, Nat.mod_mod_of_dvd _ (Nat.pow_dvd_pow 2 fits)]

/-- The two low bits of a word vanish exactly at the multiples of four. -/
theorem word_and_three (p : Nat) : 0 = word p &&& 3 ↔ p % 4 = 0 := by
  have masked := toNat_and_word p (show 2 ≤ 32 by decide)
  rw [eq_comm, ← UInt32.toNat_inj]
  rw [show word (2 ^ 2 - 1) = 3 from rfl] at masked
  rw [masked]
  simp

theorem mod_ne_of_window {m a p : Nat} (later : a < p) (near : p < a + m) : p % m ≠ a % m := by
  intro same
  have aligned : m ∣ p - a := (Nat.modEq_iff_dvd' (Nat.le_of_lt later)).mp same.symm
  have := Nat.le_of_dvd (by omega) aligned
  omega

/-- Every window of one size has a position in the slot of a given one. -/
theorem exists_window {m : Nat} (positive : 0 < m) (a p : Nat) :
    ∃ q, a ≤ q ∧ q < a + m ∧ q % m = p % m := by
  have enough : a ≤ m * a := Nat.le_mul_of_pos_left a positive
  refine ⟨a + (p + m * a - a) % m, Nat.le_add_right _ _,
    Nat.add_lt_add_left (Nat.mod_lt _ positive) _, ?_⟩
  rw [Nat.add_mod_mod, Nat.add_sub_cancel' (by omega), Nat.add_mul_mod_self_left]

/-- A signed 32-bit result: the representative of an integer in `[-2³¹, 2³¹)`. -/
def int32 (x : Int) : Int := x.bmod (2 ^ 32)

theorem int32_of_range {x : Int} (low : -2 ^ 31 ≤ x) (high : x < 2 ^ 31) : int32 x = x := by
  unfold int32
  exact Int.bmod_eq_of_le (by norm_num at low ⊢; omega) (by norm_num at high ⊢; omega)

theorem int32_lt (x : Int) : int32 x < 2 ^ 31 := Int.bmod_lt (by norm_num)

end Dmm.Word
