/-
  Flat byte memory and little-endian words.

  `Mem` is an address space of bytes.  Everything the modelled code does to such memory is

      m.read a n          the `n` bytes from address `a` on
      m.write a l         `memcpy` of the bytes `l` to address `a` (and `memset`, with `l` a
                          constant list)

  and what a proof needs is how a read meets a write: inside it (`read_write_inside`) or away from
  it (`read_write_away`).  `leBytes n v` and `leNat` are the little-endian bytes of an `n`-byte
  word and back.  Nothing in this module names the proxy.
-/
import Mathlib.Data.Nat.Basic
import Mathlib.Tactic.Ring

namespace MysqlProxy

/-! ## Little-endian words -/

/-- The `n` low bytes of `v`, lowest first. -/
def leBytes : Nat → Nat → List UInt8
  | 0, _ => []
  | n + 1, v => UInt8.ofNat (v % 256) :: leBytes n (v / 256)

/-- The number whose little-endian bytes are given. -/
def leNat : List UInt8 → Nat
  | [] => 0
  | b :: l => b.toNat + 256 * leNat l

@[simp] theorem length_leBytes (n v : Nat) : (leBytes n v).length = n := by
  induction n generalizing v with
  | zero => rfl
  | succ n ih => rw [leBytes, List.length_cons, ih]

theorem leNat_leBytes (n v : Nat) : leNat (leBytes n v) = v % 256 ^ n := by
  induction n generalizing v with
  | zero => rw [leBytes, leNat, Nat.pow_zero, Nat.mod_one]
  | succ n ih =>
    have hb : (UInt8.ofNat (v % 256)).toNat = v % 256 := by
      rw [UInt8.toNat_ofNat']
      exact Nat.mod_eq_of_lt (Nat.mod_lt v (by decide))
    rw [leBytes, leNat, ih, hb, Nat.pow_succ', Nat.mod_mul]

theorem leNat_lt (l : List UInt8) : leNat l < 256 ^ l.length := by
  induction l with
  | nil => exact Nat.one_pos
  | cons b l ih =>
    have hb : b.toNat < 256 := b.toNat_lt
    rw [leNat, List.length_cons, Nat.pow_succ]
    omega

/-! ## Memory -/

/-- A flat address space. -/
abbrev Mem := Nat → UInt8

namespace Mem

/-- The `n` bytes from address `a` on. -/
def read (m : Mem) (a n : Nat) : List UInt8 := (List.range n).map fun i => m (a + i)

/-- Copy `l` to address `a`. -/
def write (m : Mem) (a : Nat) (l : List UInt8) : Mem := fun x =>
  if a ≤ x then l.getD (x - a) (m x) else m x

@[simp] theorem length_read (m : Mem) (a n : Nat) : (m.read a n).length = n := by simp [read]

theorem write_inside (m : Mem) {a i : Nat} {l : List UInt8} (hi : i < l.length) :
    m.write a l (a + i) = l[i] := by
  unfold write
  rw [if_pos (Nat.le_add_right a i), Nat.add_sub_cancel_left, List.getD_eq_getElem?_getD,
    List.getElem?_eq_getElem hi, Option.getD_some]

theorem write_away (m : Mem) {a x : Nat} {l : List UInt8} (h : x < a ∨ a + l.length ≤ x) :
    m.write a l x = m x := by
  unfold write
  split
  · rw [List.getD_eq_getElem?_getD, List.getElem?_eq_none (by omega), Option.getD_none]
  · rfl

theorem read_congr {m m' : Mem} {a n : Nat} (h : ∀ i, i < n → m' (a + i) = m (a + i)) :
    m'.read a n = m.read a n :=
  List.map_congr_left fun i hi => h i (List.mem_range.mp hi)

/-- A longer read is a read and what is behind it. -/
theorem read_add (m : Mem) (a n k : Nat) : m.read a (n + k) = m.read a n ++ m.read (a + n) k := by
  rw [read, List.range_add, List.map_append, List.map_map]
  refine congrArg _ (List.map_congr_left fun i _ => ?_)
  rw [Function.comp_apply, Nat.add_assoc]

/-- A read inside a write sees the bytes written. -/
theorem read_write_inside (m : Mem) {a i n : Nat} {l : List UInt8} (h : i + n ≤ l.length) :
    (m.write a l).read (a + i) n = (l.drop i).take n := by
  apply List.ext_getElem
  · rw [length_read, List.length_take, List.length_drop]; omega
  · intro j h1 h2
    rw [length_read] at h1
    simp only [read, List.getElem_map, List.getElem_range, List.getElem_take, List.getElem_drop]
    rw [Nat.add_assoc, write_inside m (by omega)]

/-- A read away from a write sees what was there. -/
theorem read_write_away (m : Mem) {a b n : Nat} {l : List UInt8}
    (h : a + n ≤ b ∨ b + l.length ≤ a) : (m.write b l).read a n = m.read a n :=
  read_congr fun i hi => write_away m (by omega)

end Mem

end MysqlProxy
