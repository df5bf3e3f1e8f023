/-
  A heap of blocks, and pointers into them.

  `Heap B` holds the bytes of the blocks that are there; a block has a name in `B`.  What is done to
  blocks is

      h.read b off len       `len` bytes from `off` on, if the block is there and long enough
      h.put b bytes          the block is new, or has this content now
      h.free b               the block is gone
      h.store b bytes        `memcpy` to the start of the block

  A block is not disturbed by what is done to another one (`put_ne`, `free_ne`, `store_ne`), and a
  read not by what is stored in front of it (`read_store_behind`).  Nothing in this module names the
  proxy.
-/
import Mathlib.Logic.Function.Basic

namespace MysqlProxy

/-- The blocks that are there. -/
def Heap (B : Type*) := B → Option (List UInt8)

namespace Heap

variable {B : Type*}

def read (h : Heap B) (b : B) (off len : Nat) : Option (List UInt8) :=
  (h b).bind fun bytes =>
    if off + len ≤ bytes.length then some ((bytes.drop off).take len) else none

theorem read_congr {h h' : Heap B} {b : B} (heq : h' b = h b) (off len : Nat) :
    h'.read b off len = h.read b off len := by
  rw [read, read, heq]

theorem read_of {h : Heap B} {b : B} {bytes : List UInt8} (hb : h b = some bytes) {off len : Nat}
    (hlen : off + len ≤ bytes.length) : h.read b off len = some ((bytes.drop off).take len) := by
  rw [read, hb, Option.bind_some, if_pos hlen]

variable [DecidableEq B]

def put (h : Heap B) (b : B) (bytes : List UInt8) : Heap B := Function.update h b (some bytes)

def free (h : Heap B) (b : B) : Heap B := Function.update h b none

/-- `memcpy` to a block that is not long enough, or not there, does nothing. -/
def store (h : Heap B) (b : B) (bytes : List UInt8) : Heap B :=
  match h b with
  | none => h
  | some old =>
    if bytes.length ≤ old.length then h.put b (bytes ++ old.drop bytes.length) else h

theorem put_self (h : Heap B) (b : B) (bytes : List UInt8) : h.put b bytes b = some bytes :=
  Function.update_self ..

theorem put_ne (h : Heap B) {b b' : B} (hne : b' ≠ b) (bytes : List UInt8) :
    h.put b bytes b' = h b' :=
  Function.update_of_ne hne ..

theorem free_ne (h : Heap B) {b b' : B} (hne : b' ≠ b) : h.free b b' = h b' :=
  Function.update_of_ne hne ..

theorem store_ne (h : Heap B) {b b' : B} (hne : b' ≠ b) (bytes : List UInt8) :
    h.store b bytes b' = h b' := by
  rw [store]
  cases h b with
  | none => rfl
  | some old =>
    dsimp only
    split
    · exact h.put_ne hne _
    · rfl

theorem store_self {h : Heap B} {b : B} {old bytes : List UInt8} (hb : h b = some old)
    (hlen : bytes.length ≤ old.length) :
    h.store b bytes b = some (bytes ++ old.drop bytes.length) := by
  rw [store, hb]
  dsimp only
  rw [if_pos hlen, put_self]

/-- The block keeps its length. -/
theorem length_store {h : Heap B} {b : B} {old bytes : List UInt8} (hb : h b = some old)
    (hlen : bytes.length ≤ old.length) :
    ∃ new, h.store b bytes b = some new ∧ new.length = old.length := by
  refine ⟨_, store_self hb hlen, ?_⟩
  rw [List.length_append, List.length_drop]
  omega

/-- What was stored is read. -/
theorem read_store {h : Heap B} {b : B} {old bytes : List UInt8} (hb : h b = some old)
    (hlen : bytes.length ≤ old.length) :
    (h.store b bytes).read b 0 bytes.length = some bytes := by
  rw [read_of (store_self hb hlen), List.drop_zero, List.take_left]
  rw [List.length_append]
  omega

/-- What lies behind it is not disturbed. -/
theorem read_store_behind (h : Heap B) {b : B} {bytes : List UInt8} {off : Nat}
    (hoff : bytes.length ≤ off) (len : Nat) :
    (h.store b bytes).read b off len = h.read b off len := by
  rw [store]
  cases hb : h b with
  | none => rfl
  | some old =>
    dsimp only
    split
    next hle =>
      have hlen : (bytes ++ old.drop bytes.length).length = old.length := by
        rw [List.length_append, List.length_drop]
        omega
      have hdrop : (bytes ++ old.drop bytes.length).drop off = old.drop off := by
        rw [List.drop_append, List.drop_eq_nil_of_le hoff, List.nil_append, List.drop_drop,
          Nat.add_sub_cancel' hoff]
      rw [read, read, put_self, hb, Option.bind_some, Option.bind_some, hlen, hdrop]
    next => rfl

end Heap

end MysqlProxy
