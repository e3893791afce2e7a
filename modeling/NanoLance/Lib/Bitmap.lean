import Mathlib.Algebra.Order.Ring.Int
import Mathlib.Data.List.Basic
import Mathlib.Data.Nat.Bitwise

/-!
# Bitmaps

Bits packed into bytes, least significant bit first. A bitmap is read with
`bitAt`, which is false past its last byte, and it grows one bit at a time: a
byte of zeros at every eighth bit, and the bit itself set in the last byte.

## Theorems

* `bitAt_append_zero`: A byte of zeros adds no set bit.
* `bitAt_orLast`: Setting a bit of the last byte sets that bit alone.
* `bitAt_ones`: The first `n` bits of `ones n` are set and no other.
-/

namespace NanoLance

namespace Lib

/-- Bit `i` of a bitmap, false past its end. -/
def bitAt (bytes : List Nat) (i : Nat) : Bool :=
  (bytes.getD (i / 8) 0).testBit (i % 8)

/-- Set the bits `bits` in the last byte. -/
def orLast (bytes : List Nat) (bits : Nat) : List Nat :=
  bytes.modify (bytes.length - 1) (· ||| bits)

/-- The bytes of `n` set bits followed by a clear one. -/
def ones (n : Nat) : List Nat :=
  List.replicate (n / 8) 255 ++ [2 ^ (n % 8) - 1]

@[simp] theorem length_orLast (bytes : List Nat) (bits : Nat) :
    (orLast bytes bits).length = bytes.length := by
  rw [orLast, List.length_modify]

@[simp] theorem length_ones (n : Nat) : (ones n).length = n / 8 + 1 := by
  rw [ones, List.length_append, List.length_replicate, List.length_singleton]

theorem bitAt_append_zero (bytes : List Nat) (i : Nat) : bitAt (bytes ++ [0]) i = bitAt bytes i := by
  unfold bitAt
  grind

theorem bitAt_orLast {bytes : List Nat} {n : Nat} (i : Nat) (h : bytes.length = n / 8 + 1) :
    bitAt (orLast bytes (2 ^ (n % 8))) i = (bitAt bytes i || i == n) := by
  unfold bitAt orLast
  rw [List.getD_eq_getElem?_getD, List.getD_eq_getElem?_getD, List.getElem?_modify, h,
    Nat.add_sub_cancel]
  by_cases hbyte : n / 8 = i / 8
  · -- the byte that changes: it exists, and gains the bit `n % 8`
    have hlt : i / 8 < bytes.length := by omega
    grind
  · grind

theorem bitAt_ones (n i : Nat) : bitAt (ones n) i = decide (i < n) := by
  unfold bitAt ones
  have hlen : (List.replicate (n / 8) 255).length = n / 8 := List.length_replicate
  have hbit : i % 8 < 8 := Nat.mod_lt _ (by omega)
  rcases Nat.lt_trichotomy (i / 8) (n / 8) with h | h | h
  · rw [List.getD_append _ _ _ _ (by omega), List.getD_replicate _ h,
      show (255 : Nat) = 2 ^ 8 - 1 by rfl, Nat.testBit_two_pow_sub_one]
    rw [decide_eq_true hbit, decide_eq_true (by omega)]
  · grind
  · grind

end Lib

end NanoLance
