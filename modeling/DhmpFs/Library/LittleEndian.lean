import Mathlib.Algebra.Order.Group.Nat
import Mathlib.Tactic.Common

/-!
# Little-endian numbers in memory

A number takes a fixed count of bytes, the least significant one first. Memory is a function from
positions to bytes.

## Main definitions

* `byteLE` — the bytes of a number.
* `readLE` — the number in the bytes from a position on.
-/

namespace Library

/-- Byte `i` of `n`. -/
def byteLE (n i : Nat) : UInt8 := UInt8.ofNat (n / 256 ^ i)

/-- The number in the `width` bytes from position `p` on. -/
def readLE (mem : Nat → UInt8) : (width p : Nat) → Nat
  | 0, _ => 0
  | width + 1, p => (mem p).toNat + 256 * readLE mem width (p + 1)

theorem byteLE_succ (n i : Nat) : byteLE n (i + 1) = byteLE (n / 256) i := by
  rw [byteLE, byteLE, Nat.pow_succ', Nat.div_div_eq_div_mul]

/-- Reading the bytes of a number gives the number back, as far as they reach. -/
theorem readLE_of_bytes {mem : Nat → UInt8} {width p n : Nat}
    (h : ∀ i < width, mem (p + i) = byteLE n i) : readLE mem width p = n % 256 ^ width := by
  induction width generalizing p n with
  | zero => simp [readLE, Nat.mod_one]
  | succ width ih =>
    have hfirst : mem p = byteLE n 0 := h 0 (Nat.succ_pos width)
    have hrest : readLE mem width (p + 1) = n / 256 % 256 ^ width := ih fun i hi => by
      rw [← byteLE_succ, Nat.add_right_comm]
      exact h (i + 1) (Nat.succ_lt_succ hi)
    rw [readLE, hrest, hfirst, Nat.pow_succ', Nat.mod_mul]
    simp [byteLE]

theorem readLE_of_bytes_lt {mem : Nat → UInt8} {width p n : Nat}
    (h : ∀ i < width, mem (p + i) = byteLE n i) (hn : n < 256 ^ width) :
    readLE mem width p = n := by
  rw [readLE_of_bytes h, Nat.mod_eq_of_lt hn]

end Library
