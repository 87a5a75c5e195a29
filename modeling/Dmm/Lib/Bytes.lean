import Mathlib

/-!
# Byte memory

A memory gives the byte at every offset from a base. `store` overwrites a run of bytes and
`load` reads a little-endian number; the frame lemmas say that what lies outside the run
is unchanged.
-/

namespace Dmm.Bytes

/-- The byte at every offset. -/
abbrev Memory := Nat → UInt8

/-- The memory with a run of bytes written at an offset. -/
def store (m : Memory) (off : Nat) (bytes : List UInt8) : Memory := fun i =>
  if off ≤ i then bytes[i - off]?.getD (m i) else m i

/-- The little-endian number in the bytes at an offset. -/
def load (m : Memory) (off : Nat) : Nat → Nat
  | 0 => 0
  | width + 1 => (m off).toNat + 256 * load m (off + 1) width

/-- The little-endian bytes of a number. -/
def encode (value : Nat) : Nat → List UInt8
  | 0 => []
  | width + 1 => UInt8.ofNat value :: encode (value / 256) width

/-- The memory with a little-endian number written at an offset. -/
def put (m : Memory) (off width value : Nat) : Memory := store m off (encode value width)

/-- One bit of the byte at an offset. -/
def bit (m : Memory) (off position : Nat) : Bool := (m off).toNat.testBit position

/-- The memory with one bit of the byte at an offset set or cleared. -/
def setBit (m : Memory) (off : Nat) (position : UInt8) (value : Bool) : Memory :=
  Function.update m off
    (if value then m off ||| (1 <<< position) else m off &&& ~~~(1 <<< position))

@[simp] theorem length_encode (value width : Nat) : (encode value width).length = width := by
  induction width generalizing value with
  | zero => rfl
  | succ width ih => simp [encode, ih]

theorem store_outside {m : Memory} {off i : Nat} {bytes : List UInt8}
    (outside : i < off ∨ off + bytes.length ≤ i) : store m off bytes i = m i := by
  unfold store
  split
  · rw [List.getElem?_eq_none (by omega), Option.getD_none]
  · rfl

theorem store_inside {m : Memory} {off k : Nat} {bytes : List UInt8} (inside : k < bytes.length) :
    store m off bytes (off + k) = bytes[k] := by
  simp [store, inside]

theorem store_append (m : Memory) (off : Nat) (first second : List UInt8) :
    store (store m off first) (off + first.length) second = store m off (first ++ second) := by
  funext i
  by_cases below : i < off + first.length
  · rw [store_outside (.inl below)]
    by_cases inside : off ≤ i
    · obtain ⟨k, rfl⟩ := Nat.exists_eq_add_of_le inside
      rw [store_inside (by omega), store_inside (by simp; omega),
        List.getElem_append_left (by omega)]
    · rw [store_outside (.inl (by omega)), store_outside (.inl (by omega))]
  · obtain ⟨k, rfl⟩ := Nat.exists_eq_add_of_le (Nat.le_of_not_lt below)
    by_cases inside : k < second.length
    · rw [store_inside inside, Nat.add_assoc, store_inside (by simp; omega),
        List.getElem_append_right (by omega)]
      simp
    · rw [store_outside (.inr (by omega)), store_outside (.inr (by omega)),
        store_outside (.inr (by simp; omega))]

theorem load_congr {m m' : Memory} {off width : Nat}
    (same : ∀ i, off ≤ i → i < off + width → m' i = m i) :
    load m' off width = load m off width := by
  induction width generalizing off with
  | zero => rfl
  | succ width ih =>
    have rest : load m' (off + 1) width = load m (off + 1) width :=
      ih fun i lower upper => same i (by omega) (by omega)
    simp only [load, same off le_rfl (by omega), rest]

theorem load_store {m : Memory} {off width place : Nat} {bytes : List UInt8}
    (apart : off + width ≤ place ∨ place + bytes.length ≤ off) :
    load (store m place bytes) off width = load m off width :=
  load_congr fun _ _ _ => store_outside (by omega)

theorem load_store_inside {m : Memory} {off width : Nat} {bytes : List UInt8}
    (inside : off + width ≤ bytes.length) :
    load (store m 0 bytes) off width = load (fun i => bytes.getD i 0) off width := by
  apply load_congr
  intro i _ upper
  have small : i < bytes.length := by omega
  simp [store, small]

theorem load_put {m : Memory} {off width place width' value : Nat}
    (apart : off + width ≤ place ∨ place + width' ≤ off) :
    load (put m place width' value) off width = load m off width :=
  load_store (by simpa using apart)

theorem load_setBit {m : Memory} {off width place : Nat} {position : UInt8} {value : Bool}
    (apart : off + width ≤ place ∨ place < off) :
    load (setBit m place position value) off width = load m off width :=
  load_congr fun _ _ _ => Function.update_of_ne (by omega) _ _

/-- A number of so many bytes is below the range of so many bytes. -/
theorem load_lt (m : Memory) (off width : Nat) : load m off width < 256 ^ width := by
  induction width generalizing off with
  | zero => simp [load]
  | succ width ih =>
    have byte := (m off).toNat_lt
    have rest := ih (off + 1)
    rw [load, Nat.pow_succ]
    omega

/-- The number read where it was written is the one written, in so many bytes. -/
theorem load_put_self (m : Memory) (off width value : Nat) :
    load (put m off width value) off width = value % 256 ^ width := by
  induction width generalizing m off value with
  | zero => simp [load, Nat.mod_one]
  | succ width ih =>
    have first : put m off (width + 1) value off = UInt8.ofNat value := by
      simp [put, store, encode]
    have rest : load (put m off (width + 1) value) (off + 1) width =
        load (put m (off + 1) width (value / 256)) (off + 1) width := by
      apply load_congr
      intro i lower upper
      obtain ⟨k, rfl⟩ := Nat.exists_eq_add_of_le lower
      rw [put, put, store_inside (by simp; omega), Nat.add_assoc off 1 k,
        store_inside (by simp; omega)]
      simp [encode, Nat.add_comm 1 k]
    rw [load, first, rest, ih, Nat.pow_succ', Nat.mod_mul]
    simp

/-- One bit of a byte after a bit of that byte was written. -/
theorem bit_setBit (m : Memory) (off : Nat) {position : UInt8} (small : position.toNat < 8)
    (value : Bool) {q : Nat} (inside : q < 8) :
    bit (setBit m off position value) off q =
      if q = position.toNat then value else bit m off q := by
  have power : 2 ^ position.toNat < 2 ^ 8 := Nat.pow_lt_pow_right (by decide) small
  have shifted : ((1 : UInt8) <<< position).toNat = 2 ^ position.toNat := by
    rw [UInt8.toNat_shiftLeft, Nat.mod_eq_of_lt small, UInt8.toNat_one, Nat.shiftLeft_eq, one_mul]
    exact Nat.mod_eq_of_lt power
  unfold bit setBit
  rw [Function.update_self]
  cases value with
  | true =>
    rw [if_pos rfl, UInt8.toNat_or, Nat.testBit_or, shifted, Nat.testBit_two_pow]
    by_cases same : q = position.toNat
    · simp [same]
    · simp [same, Ne.symm same]
  | false =>
    have flipped : (~~~((1 : UInt8) <<< position)).toNat = 2 ^ 8 - (2 ^ position.toNat + 1) := by
      have size : UInt8.size = 2 ^ 8 := rfl
      rw [UInt8.toNat_not, shifted, Nat.sub_sub, Nat.add_comm, size]
    rw [if_neg (by decide), UInt8.toNat_and, Nat.testBit_and, flipped,
      Nat.testBit_two_pow_sub_succ power, Nat.testBit_two_pow]
    by_cases same : q = position.toNat
    · simp [same]
    · simp [same, Ne.symm same, inside]

end Dmm.Bytes
