/-!
# Machine integers

The values of a C program on a 32-bit two's-complement machine.  `Byte` and `Word` are bit
vectors.  An `int` that takes part in arithmetic is a Lean `Int` that `int32` brings back
into range after each operation that can leave it, so that signed overflow wraps;
`uint32` and `uint64` do the same for the unsigned types.

* `int32_of_range` — wrapping is the identity on values that fit.
* `int32_emod` — wrapping does not change the residue modulo `2^32`.
* `byte_toNat` — the value of a stored byte.
-/

set_option autoImplicit false

/-- An 8-bit memory cell. -/
abbrev Byte := BitVec 8

/-- A 32-bit register or stack slot. -/
abbrev Word := BitVec 32

/-- Two's-complement wrap to a signed 32-bit value. -/
def int32 (x : Int) : Int := (x + 2147483648) % 4294967296 - 2147483648

/-- Wrap to an unsigned 32-bit value. -/
def uint32 (x : Int) : Nat := (x % 4294967296).toNat

/-- Wrap to an unsigned 64-bit value. -/
def uint64 (x : Int) : Nat := (x % 18446744073709551616).toNat

/-- `x` is the value of some `int`. -/
def IsInt32 (x : Int) : Prop := -2147483648 ≤ x ∧ x < 2147483648

theorem int32_of_range {x : Int} (h : IsInt32 x) : int32 x = x := by
  unfold IsInt32 at h
  unfold int32
  omega

theorem int32_isInt32 (x : Int) : IsInt32 (int32 x) := by
  unfold IsInt32 int32
  omega

theorem int32_emod (x : Int) : int32 x % 4294967296 = x % 4294967296 := by
  unfold int32
  omega

/-- Two wraps of congruent values agree. -/
theorem int32_congr {x y : Int} (h : x % 4294967296 = y % 4294967296) : int32 x = int32 y := by
  unfold int32
  omega

/-- A wrap inside a wrapped sum can be dropped. -/
theorem int32_add_left (x y : Int) : int32 (int32 x + y) = int32 (x + y) := by
  have := int32_emod x
  exact int32_congr (by omega)

/-- The value of a byte that was stored from an `int` in the unsigned byte range. -/
theorem byte_toNat {c : Int} (h0 : 0 ≤ c) (h1 : c < 256) :
    ((BitVec.ofInt 8 c).toNat : Int) = c := by
  rw [BitVec.toNat_ofInt]
  omega

/-- A non-zero `int` in the byte range is stored as a non-zero byte. -/
theorem byte_ne_zero {c : Int} (h0 : 0 < c) (h1 : c < 256) : BitVec.ofInt 8 c ≠ 0#8 := by
  intro h
  have := byte_toNat (Int.le_of_lt h0) h1
  rw [h] at this
  simp at this
  omega
