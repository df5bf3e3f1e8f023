/-
  Lists cut into blocks of a fixed length.

  `onBlocks k f l` replaces every complete block of `k` elements by what `f` makes of it.  A list of
  whole blocks is treated one block at a time (`onBlocks_block`), so it does not matter in how many
  pieces it is treated (`onBlocks_append`), and a map of blocks that can be undone block by block
  can be undone (`onBlocks_undo`).  Nothing in this module names the proxy.
-/
import Mathlib.Data.List.Basic

namespace MysqlProxy

variable {α β : Type}

/-- The complete blocks of `k` elements, each replaced by what `f` makes of it. -/
def onBlocks (k : Nat) (f : List α → List β) (l : List α) : List β :=
  (List.range (l.length / k)).flatMap fun i => f ((l.drop (i * k)).take k)

theorem onBlocks_nil (k : Nat) (f : List α → List β) : onBlocks k f [] = [] := by
  rw [onBlocks, List.length_nil, Nat.zero_div]
  rfl

/-- The first block, and the rest. -/
theorem onBlocks_block {k : Nat} (hk : 0 < k) (f : List α → List β) {b : List α} (hb : b.length = k)
    (l : List α) : onBlocks k f (b ++ l) = f b ++ onBlocks k f l := by
  have hlen : (b ++ l).length / k = l.length / k + 1 := by
    rw [List.length_append, hb, Nat.add_comm, Nat.add_div_right _ hk]
  rw [onBlocks, hlen, List.range_succ_eq_map, List.flatMap_cons, List.flatMap_map, onBlocks]
  have hfirst : (((b ++ l).drop (0 * k)).take k) = b := by
    rw [Nat.zero_mul, List.drop_zero, List.take_left' hb]
  have hrest : ∀ i, (b ++ l).drop ((i + 1) * k) = l.drop (i * k) := by
    intro i
    rw [Nat.succ_mul, Nat.add_comm, ← List.drop_drop, List.drop_left' hb]
  rw [hfirst]
  simp only [Nat.succ_eq_add_one, hrest]

/-- Whole blocks are added in front one by one. -/
@[elab_as_elim]
theorem blocks_induction {k : Nat} {P : List α → Prop} (nil : P [])
    (block : ∀ b l, b.length = k → k ∣ l.length → P l → P (b ++ l)) (l : List α)
    (hl : k ∣ l.length) : P l := by
  obtain ⟨m, hm⟩ := hl
  induction m generalizing l with
  | zero =>
    rw [Nat.mul_zero] at hm
    rw [List.length_eq_zero_iff.mp hm]
    exact nil
  | succ m ih =>
    rw [Nat.mul_succ] at hm
    have hrest : (l.drop k).length = k * m := by
      rw [List.length_drop]
      omega
    rw [← List.take_append_drop k l]
    refine block _ _ ?_ ⟨m, hrest⟩ (ih _ hrest)
    rw [List.length_take]
    omega

section Whole

variable {k : Nat} (hk : 0 < k)

include hk

/-- **It does not matter in how many pieces** whole blocks are treated. -/
theorem onBlocks_append (f : List α → List β) {l : List α} (hl : k ∣ l.length) (l' : List α) :
    onBlocks k f (l ++ l') = onBlocks k f l ++ onBlocks k f l' := by
  refine blocks_induction ?nil ?block l hl
  case nil => rw [onBlocks_nil, List.nil_append, List.nil_append]
  case block =>
    intro b l hb _ ih
    rw [List.append_assoc, onBlocks_block hk f hb, onBlocks_block hk f hb, ih, List.append_assoc]

theorem length_onBlocks {f : List α → List β} (hf : ∀ b : List α, b.length = k → (f b).length = k)
    {l : List α} (hl : k ∣ l.length) : (onBlocks k f l).length = l.length := by
  refine blocks_induction ?nil ?block l hl
  case nil => rw [onBlocks_nil, List.length_nil, List.length_nil]
  case block =>
    intro b l hb _ ih
    rw [onBlocks_block hk f hb, List.length_append, List.length_append, hf b hb, ih, hb]

/-- **What is undone block by block is undone.** -/
theorem onBlocks_undo {f : List α → List β} {g : List β → List α}
    (hf : ∀ b : List α, b.length = k → (f b).length = k)
    (hg : ∀ b : List α, b.length = k → g (f b) = b) {l : List α} (hl : k ∣ l.length) :
    onBlocks k g (onBlocks k f l) = l := by
  refine blocks_induction ?nil ?block l hl
  case nil => rw [onBlocks_nil, onBlocks_nil]
  case block =>
    intro b l hb _ ih
    rw [onBlocks_block hk f hb, onBlocks_block hk g (hf b hb), hg b hb, ih]

end Whole

end MysqlProxy
