import Mathlib

/-!
# Sets of flags in a word

A word of 32 bits as a set of flags, and inclusion of such sets.
-/

namespace Dmm.Mask

variable {a b c d : UInt32}

/-- All flags of `a` are in `b`. -/
def Within (a b : UInt32) : Prop := a &&& ~~~b = 0

instance (a b : UInt32) : Decidable (Within a b) := inferInstanceAs (Decidable (_ = _))

theorem within_iff : Within a b ↔
    ∀ k, a.toBitVec.getLsbD k = true → b.toBitVec.getLsbD k = true := by
  unfold Within
  constructor
  · intro none k set
    have bit := congrArg (fun w : UInt32 => w.toBitVec.getLsbD k) none
    have small := BitVec.lt_of_getLsbD set
    simpa [set, small] using bit
  · intro all
    apply UInt32.toBitVec_inj.mp
    apply BitVec.eq_of_getLsbD_eq
    intro k small
    have bit := all k
    simp only [UInt32.toBitVec_and, UInt32.toBitVec_not, BitVec.getLsbD_and, BitVec.getLsbD_not,
      small, decide_true, Bool.true_and, UInt32.toBitVec_zero, BitVec.getLsbD_zero]
    cases first : a.toBitVec.getLsbD k with
    | false => rfl
    | true => simp [bit first]

theorem Within.refl (a : UInt32) : Within a a := within_iff.mpr fun _ set => set

theorem Within.trans (first : Within a b) (second : Within b c) : Within a c :=
  within_iff.mpr fun k set => within_iff.mp second k (within_iff.mp first k set)

theorem zero_within (a : UInt32) : Within 0 a := by simp [Within]

theorem Within.eq_zero (inside : Within a 0) : a = 0 := by simpa [Within] using inside

theorem or_within (first : Within a c) (second : Within b c) : Within (a ||| b) c := by
  rw [within_iff] at *
  intro k set
  rw [UInt32.toBitVec_or, BitVec.getLsbD_or, Bool.or_eq_true] at set
  exact set.elim (first k) (second k)

theorem within_or_left (a b : UInt32) : Within a (a ||| b) := by
  rw [within_iff]
  intro k set
  simp [set]

theorem within_or_right (a b : UInt32) : Within b (a ||| b) := by
  rw [within_iff]
  intro k set
  simp [set]

theorem and_within_left (a b : UInt32) : Within (a &&& b) a := by
  rw [within_iff]
  intro k set
  rw [UInt32.toBitVec_and, BitVec.getLsbD_and, Bool.and_eq_true] at set
  exact set.1

theorem and_within_right (a b : UInt32) : Within (a &&& b) b := by
  rw [within_iff]
  intro k set
  rw [UInt32.toBitVec_and, BitVec.getLsbD_and, Bool.and_eq_true] at set
  exact set.2

theorem Within.or (first : Within a c) (second : Within b d) : Within (a ||| b) (c ||| d) :=
  or_within (first.trans (within_or_left c d)) (second.trans (within_or_right c d))

/-- What is left of a set inside a union when one part is taken away is in the other. -/
theorem Within.diff (inside : Within a (b ||| c)) : Within (a &&& ~~~b) c := by
  rw [within_iff] at *
  intro k set
  have small := BitVec.lt_of_getLsbD set
  simp only [UInt32.toBitVec_and, UInt32.toBitVec_not, BitVec.getLsbD_and, BitVec.getLsbD_not,
    small, decide_true, Bool.true_and, Bool.and_eq_true, Bool.not_eq_true'] at set
  have either := inside k set.1
  rw [UInt32.toBitVec_or, BitVec.getLsbD_or, set.2, Bool.false_or] at either
  exact either

theorem and_flag_ne_iff {flag : UInt32} (k : Nat) (single : flag.toNat = 2 ^ k) (a : UInt32) :
    a &&& flag ≠ flag ↔ a &&& flag = 0 := by
  have value : (a &&& flag).toNat = (a.toNat.testBit k).toNat * 2 ^ k := by
    rw [UInt32.toNat_and, single]
    exact Nat.and_two_pow a.toNat k
  have positive : 0 < 2 ^ k := Nat.two_pow_pos k
  rw [ne_eq, ← UInt32.toNat_inj, ← UInt32.toNat_inj, value, single]
  cases a.toNat.testBit k with
  | false => simp [positive.ne]
  | true => simp

end Dmm.Mask
