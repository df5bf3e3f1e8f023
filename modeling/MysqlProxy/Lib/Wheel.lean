/-
  Counters on a wheel.

  `k + 1` counters stand in a ring.  The one at the current position is added to, the `k` from there
  on are the WINDOW, and the last one is a spare that is zero.  The wheel turns backwards: the spare
  becomes current, and the oldest counter of the window becomes the spare.

  `Accounts`: a counter became current when the total of all additions was `base`, so the counters
  from the current one up to it add up to what came since.  Adding (`Accounts.add`), turning
  (`Accounts.turn`) and starting anew (`Accounts.start`) keep this.  Nothing in this module names
  the proxy.
-/
import Mathlib.Algebra.BigOperators.Group.Finset.Basic
import Mathlib.Data.Fin.Basic

namespace MysqlProxy

variable {k : Nat}

/-- The `i`th position behind `c`. -/
def behind (c : Fin (k + 1)) (i : Nat) : Fin (k + 1) := c + Fin.ofNat (k + 1) i

theorem val_behind (c : Fin (k + 1)) (i : Nat) : (behind c i).val = (c.val + i) % (k + 1) := by
  rw [behind, Fin.val_add, Fin.val_ofNat, Nat.add_mod_mod]

theorem behind_zero (c : Fin (k + 1)) : behind c 0 = c := by
  apply Fin.ext
  rw [val_behind, Nat.add_zero, Nat.mod_eq_of_lt c.isLt]

theorem behind_behind (c : Fin (k + 1)) (i j : Nat) : behind (behind c i) j = behind c (i + j) := by
  apply Fin.ext
  rw [val_behind, val_behind, val_behind, Nat.mod_add_mod, Nat.add_assoc]

/-- Once around. -/
theorem behind_turn (c : Fin (k + 1)) (i : Nat) : behind c (k + 1 + i) = behind c i := by
  apply Fin.ext
  rw [val_behind, val_behind, ← Nat.add_assoc, Nat.add_right_comm, Nat.add_mod_right]

/-- Less than once around, different numbers of steps lead to different positions. -/
theorem behind_ne (c : Fin (k + 1)) {i j : Nat} (hij : i < j) (hj : j ≤ k) :
    behind c i ≠ behind c j := by
  intro h
  have hval := congrArg Fin.val h
  rw [val_behind, val_behind] at hval
  have hc := c.isLt
  have hi : (c.val + i) % (k + 1) = if c.val + i < k + 1 then c.val + i
    else c.val + i - (k + 1) := by
    split
    · exact Nat.mod_eq_of_lt ‹_›
    · rw [Nat.mod_eq_sub_mod (by omega)]
      exact Nat.mod_eq_of_lt (by omega)
  have hj' : (c.val + j) % (k + 1) = if c.val + j < k + 1 then c.val + j
    else c.val + j - (k + 1) := by
    split
    · exact Nat.mod_eq_of_lt ‹_›
    · rw [Nat.mod_eq_sub_mod (by omega)]
      exact Nat.mod_eq_of_lt (by omega)
  rw [hi, hj'] at hval
  split at hval <;> split at hval <;> omega

variable {A : Type*} [AddCommMonoid A]

/-- The sum of `m` counters from the position `c` on. -/
def windowSum (d : Fin (k + 1) → A) (c : Fin (k + 1)) (m : Nat) : A :=
  ∑ i ∈ Finset.range m, d (behind c i)

/-- The first counter, and the others. -/
theorem windowSum_succ (d : Fin (k + 1) → A) (c : Fin (k + 1)) (m : Nat) :
    windowSum d c (m + 1) = d c + windowSum d (behind c 1) m := by
  rw [windowSum, Finset.sum_range_succ', behind_zero, add_comm, windowSum]
  simp only [behind_behind, Nat.add_comm 1]

/-- Added up one after the other. -/
theorem foldl_window (d : Fin (k + 1) → A) (c : Fin (k + 1)) (v : A) (m : Nat) :
    (List.range m).foldl (fun v i => v + d (behind c i)) v = v + windowSum d c m := by
  induction m with
  | zero => rw [List.range_zero, List.foldl_nil, windowSum, Finset.sum_range_zero, add_zero]
  | succ m ih =>
    rw [List.range_succ, List.foldl_append, List.foldl_cons, List.foldl_nil, ih, add_assoc,
      windowSum,
      windowSum, Finset.sum_range_succ]

/-- A counter outside of the sum does not matter. -/
theorem windowSum_update (d : Fin (k + 1) → A) (c : Fin (k + 1)) {m j : Nat} (hm : m ≤ j)
    (hj : j ≤ k)
    (v : A) : windowSum (Function.update d (behind c j) v) c m = windowSum d c m := by
  apply Finset.sum_congr rfl
  intro i hi
  have hne := behind_ne c (Nat.lt_of_lt_of_le (Finset.mem_range.mp hi) hm) hj
  exact Function.update_of_ne hne _ _

/-- The counters up to the one that became current at the total `base` make up the difference. -/
def Accounts (d : Fin (k + 1) → A) (c : Fin (k + 1)) (base : Fin (k + 1) → A) (total : A) : Prop :=
  ∀ j < k, windowSum d c (j + 1) + base (behind c j) = total

namespace Accounts

variable {d base : Fin (k + 1) → A} {c : Fin (k + 1)} {total : A}

/-- All counters are zero, and begin at the total. -/
theorem start (c : Fin (k + 1)) (total : A) :
    Accounts (fun _ => (0 : A)) c (fun _ => total) total := by
  intro j _
  rw [windowSum, Finset.sum_const_zero, zero_add]

/-- The current counter is added to. -/
theorem add (h : Accounts d c base total) (v : A) :
    Accounts (Function.update d c (d c + v)) c base (total + v) := by
  intro j hj
  have hrest : windowSum (Function.update d c (d c + v)) (behind c 1) j =
    windowSum d (behind c 1) j := by
    have hk : behind (behind c 1) k = c := by
      rw [behind_behind, Nat.add_comm 1 k]
      exact (behind_turn c 0).trans (behind_zero c)
    have := windowSum_update d (behind c 1) (Nat.le_of_lt hj) (Nat.le_refl k) (d c + v)
    rwa [hk] at this
  rw [windowSum_succ, Function.update_self, hrest, add_right_comm (d c) v, add_right_comm _ v,
    ← windowSum_succ, h j hj]

/-- **The wheel turns.**  The oldest counter of the window is cleared and is the spare now. -/
theorem turn (hk : 0 < k) (h : Accounts d c base total) (hspare : d (behind c k) = 0) :
    Accounts (Function.update d (behind c (k - 1)) 0) (behind c k)
      (Function.update base (behind c k) total) total := by
  -- behind the new current position comes the old one
  have hnext : ∀ i, behind (behind c k) (i + 1) = behind c i := by
    intro i
    rw [behind_behind, ← Nat.add_assoc, Nat.add_right_comm, behind_turn]
  have hcur : Function.update d (behind c (k - 1)) 0 (behind c k) = 0 := by
    rw [Function.update_of_ne (behind_ne c (by omega) (Nat.le_refl k)).symm, hspare]
  intro j hj
  rw [windowSum_succ, hcur, zero_add, hnext 0, behind_zero]
  cases j with
  | zero =>
    rw [behind_zero, Function.update_self, windowSum, Finset.sum_range_zero, zero_add]
  | succ j =>
    have hne := behind_ne c (show j < k by omega) (Nat.le_refl k)
    rw [hnext, Function.update_of_ne hne, windowSum_update d c (by omega) (by omega)]
    exact h j (by omega)

/-- The new spare. -/
theorem spare_turn (hk : 0 < k) (d : Fin (k + 1) → A) (c : Fin (k + 1)) :
    Function.update d (behind c (k - 1)) 0 (behind (behind c k) k) = 0 := by
  have hpos : behind (behind c k) k = behind c (k - 1) := by
    rw [behind_behind, show k + k = k + 1 + (k - 1) by omega, behind_turn]
  rw [hpos, Function.update_self]

end Accounts

end MysqlProxy
