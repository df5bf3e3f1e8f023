/-
  Fixed-width machine integers, as far as the C++ code observes them.

  Counters that the source keeps in an `ull64_t` are `Nat`s below `2 ^ 64` here; what the code
  can SEE of the width is

  * `int32`          — the value an `int` gets from a wider unsigned one (`(int)x`),
  * `inc64`, `dec64` — `x++` and `x--` on an unsigned 64-bit word,
  * `sub64`          — `x - y` on such words.

  Every other 64-bit operation of the modelled code stays inside the range and is plain `Nat`
  arithmetic.  Nothing in this module names the proxy.
-/
import Mathlib.Data.Nat.Basic
import Mathlib.Tactic.Ring

namespace MysqlProxy

/-- `(int)x`: the low 32 bits of `x`, read as a signed number. -/
def int32 (x : Int) : Int := x.bmod (2 ^ 32)

theorem int32_of_lt {x : Int} (h0 : 0 ≤ x) (h : x < 2 ^ 31) : int32 x = x := by
  unfold int32
  exact Int.bmod_eq_of_le (by omega) (by omega)

/-- The cast of a non-negative value never makes it larger. -/
theorem int32_le {x : Int} (h0 : 0 ≤ x) : int32 x ≤ x := by
  unfold int32
  rw [Int.bmod_def]
  split <;> omega

theorem int32_lt (x : Int) : int32 x < 2 ^ 31 := by
  unfold int32
  exact Int.bmod_lt (by decide)

/-- `x++` on an unsigned 64-bit word. -/
def inc64 (x : Nat) : Nat := (x + 1) % 2 ^ 64

/-- `x--` on an unsigned 64-bit word. -/
def dec64 (x : Nat) : Nat := if x = 0 then 2 ^ 64 - 1 else x - 1

/-- `x - y` on unsigned 64-bit words. -/
def sub64 (x y : Nat) : Nat := if y ≤ x then x - y else 2 ^ 64 - (y - x)

theorem sub64_of_le {x y : Nat} (h : y ≤ x) : sub64 x y = x - y := if_pos h

theorem inc64_of_lt {x : Nat} (h : x + 1 < 2 ^ 64) : inc64 x = x + 1 := Nat.mod_eq_of_lt h

theorem dec64_of_pos {x : Nat} (h : 0 < x) : dec64 x = x - 1 := if_neg (Nat.ne_of_gt h)

end MysqlProxy
