/-
  The arrays of `CalcNodeNumForEachRow`, and the two ways to a row.

  `Search` goes from row to row by the sizes, `Next` takes the index from `auRowsStartNode`.
  `RowGeometry` says that both come to the same node, and what the sizes are: none, `1` or a prime,
  with no more nodes than there are, smaller from row to row behind the third.

  `fillRows` writes the arrays as the function does, row after row; the sizes are those of
  `calcNodeNumForEachRow` (`fillRows_nodeNum`).  `MaxPrime` finds the largest prime below its
  argument from `4` on (`maxPrime_isGreatest`); `ceil(sqrt(n))` is taken to be exact.
-/
import MysqlProxy.Ht.MhtLayout
import Mathlib.Data.List.GetD
import Mathlib.Order.Bounds.Defs

namespace MysqlProxy

/-! ## The code -/

/-- The arrays as far as they are filled, and `uNodeNum`. -/
structure RowArrays where
  auRowsNodeNum : List Nat
  auRowsStartNode : List Nat
  uNodeNum : Nat

/-- One row is written. -/
def RowArrays.addRow (a : RowArrays) (num : Nat) : RowArrays where
  auRowsNodeNum := a.auRowsNodeNum ++ [num]
  auRowsStartNode := a.auRowsStartNode ++ [a.uNodeNum]
  uNodeNum := a.uNodeNum + num

/-- Rows `3, 4, ..`. -/
def fillTail : Nat → Nat → RowArrays → RowArrays
  | 0, _, a => a
  | r + 1, j, a => fillTail r (maxPrime j) (a.addRow (maxPrime j))

/-- `CalcNodeNumForEachRow`: the arrays, and in `uNodeNum` what it returns. -/
def fillRows (ddwRowNum ddwMaxNodeNum : Nat) : RowArrays :=
  let uLeftNum := ddwMaxNodeNum
  let num := maxPrime (if ddwRowNum = 1 then uLeftNum else uLeftNum * 70 % 2 ^ 64 / 100)
  let a := RowArrays.addRow ⟨[], [], 0⟩ num
  let uLeftNum := uLeftNum - num
  if ddwRowNum = 1 then a
  else
    let num := maxPrime (if ddwRowNum = 2 then uLeftNum else uLeftNum * 10 % 2 ^ 64 / 100)
    let a := a.addRow num
    let uLeftNum := uLeftNum - num
    if ddwRowNum = 2 then a
    else
      let num := maxPrime (if ddwRowNum = 3 then uLeftNum else uLeftNum * 5 % 2 ^ 64 / 100)
      let a := a.addRow num
      let uLeftNum := uLeftNum - num
      if ddwRowNum = 3 then a
      else fillTail (ddwRowNum - 3) (uLeftNum / (ddwRowNum - 3)) a

/-- `HT_GET_AT`: the node with this index from a node on. -/
def htGetAt (ht idx ns : Nat) : Nat := ht + ns * idx

/-- `pRow` of `Search` in row `i`. -/
def rowPointer (ht ns : Nat) (auRowsNodeNum : List Nat) : Nat → Nat
  | 0 => ht
  | i + 1 => htGetAt (rowPointer ht ns auRowsNodeNum i) (auRowsNodeNum.getD i 0) ns

/-! ## What the rows are like -/

/-- The rows of a table with `ddwRowNum` rows and room for `ddwMaxNodeNum` nodes. -/
structure RowGeometry (ddwRowNum ddwMaxNodeNum : Nat) (a : RowArrays) : Prop where
  nums : a.auRowsNodeNum.length = ddwRowNum
  starts : a.auRowsStartNode.length = ddwRowNum
  prefixSums : ∀ i < ddwRowNum, a.auRowsStartNode.getD i 0 = (a.auRowsNodeNum.take i).sum
  /-- `Search` and `Next` mean the same first node of a row. -/
  sameNode : ∀ ht ns, ∀ i < ddwRowNum,
    rowPointer ht ns a.auRowsNodeNum i = htGetAt ht (a.auRowsStartNode.getD i 0) ns
  /-- `Next` ends where `Search` would begin with the next row. -/
  sameEnd : ∀ ht ns, ∀ i < ddwRowNum, rowPointer ht ns a.auRowsNodeNum (i + 1) =
    htGetAt ht (a.auRowsStartNode.getD i 0 + a.auRowsNodeNum.getD i 0) ns
  total : a.uNodeNum = a.auRowsNodeNum.sum ∧ a.uNodeNum ≤ ddwMaxNodeNum
  sizes : ∀ num ∈ a.auRowsNodeNum, num = 0 ∨ num = 1 ∨ num.Prime
  decreasing : ∀ i, 3 ≤ i → i + 1 < ddwRowNum →
    a.auRowsNodeNum.getD (i + 1) 0 < a.auRowsNodeNum.getD i 0 ∨
      a.auRowsNodeNum.getD i 0 = 0 ∧ a.auRowsNodeNum.getD (i + 1) 0 = 0

/-! ## `MaxPrime` -/

/-- `MaxPrime` finds nothing, `1` or a prime. -/
theorem maxPrime_cases (n : Nat) : maxPrime n = 0 ∨ maxPrime n = 1 ∨ (maxPrime n).Prime := by
  induction n with
  | zero => exact .inl rfl
  | succ n ih =>
    rw [maxPrime_succ]
    split
    case isTrue haccepted => exact .inr (haccepted.imp_right And.left)
    case isFalse => exact ih

theorem maxPrime_lt {n : Nat} (h : 0 < n) : maxPrime n < n := by
  have hle := maxPrime_le n
  omega

/-- **`MaxPrime`** returns the largest prime below its argument, from `4` on. -/
theorem maxPrime_isGreatest {n : Nat} (h : 4 ≤ n) :
    IsGreatest {p | p.Prime ∧ p < n} (maxPrime n) := by
  induction n, h using Nat.le_induction with
  | base =>
    have hthree : maxPrime 4 = 3 := by decide +kernel
    rw [hthree]
    exact ⟨⟨Nat.prime_three, by omega⟩, fun p hp => Nat.lt_succ_iff.mp hp.2⟩
  | succ n hn ih =>
    rw [maxPrime_succ]
    split
    case isTrue haccepted =>
      rcases haccepted with hone | ⟨hprime, -⟩
      · omega
      · exact ⟨⟨hprime, Nat.lt_succ_self n⟩, fun p hp => Nat.lt_succ_iff.mp hp.2⟩
    case isFalse hrejected =>
      refine ⟨⟨ih.1.1, Nat.lt_succ_of_lt ih.1.2⟩, fun p ⟨hp, hlt⟩ => ih.2 ⟨hp, ?_⟩⟩
      rcases Nat.lt_succ_iff_lt_or_eq.mp hlt with hlt | rfl
      · exact hlt
      · exact absurd (.inr ⟨hp, by omega⟩) hrejected

/-! ## The arrays -/

/-- Both arrays have the same rows, and `uNodeNum` goes with them. -/
structure RowArrays.Summed (a : RowArrays) : Prop where
  length : a.auRowsStartNode.length = a.auRowsNodeNum.length
  starts : ∀ i < a.auRowsNodeNum.length,
    a.auRowsStartNode.getD i 0 = (a.auRowsNodeNum.take i).sum
  total : a.uNodeNum = a.auRowsNodeNum.sum

namespace RowArrays

theorem summed_empty : Summed ⟨[], [], 0⟩ := ⟨rfl, nofun, rfl⟩

theorem Summed.addRow {a : RowArrays} (h : a.Summed) (num : Nat) : (a.addRow num).Summed := by
  refine ⟨?_, fun i hi => ?_, ?_⟩
  · simp only [RowArrays.addRow, List.length_append, List.length_singleton, h.length]
  · simp only [RowArrays.addRow, List.length_append, List.length_singleton] at hi ⊢
    rw [List.take_append_of_le_length (by omega)]
    rcases Nat.lt_succ_iff_lt_or_eq.mp hi with hlt | rfl
    · rw [List.getD_append _ _ _ _ (by rw [h.length]; exact hlt), h.starts i hlt]
    · rw [List.getD_append_right _ _ _ _ (Nat.le_of_eq h.length), h.length, Nat.sub_self,
        List.take_length, ← h.total]
      rfl
  · simp only [RowArrays.addRow, List.sum_append, List.sum_singleton, h.total]

theorem Summed.fillTail {r : Nat} : ∀ {j : Nat} {a : RowArrays}, a.Summed →
    (fillTail r j a).Summed ∧
      (fillTail r j a).auRowsNodeNum = a.auRowsNodeNum ++ tailRows r j := by
  induction r with
  | zero => exact fun h => ⟨h, (List.append_nil _).symm⟩
  | succ r ih =>
    intro j a h
    obtain ⟨hsummed, hnums⟩ := ih (j := maxPrime j) (h.addRow (maxPrime j))
    refine ⟨hsummed, hnums.trans ?_⟩
    rw [tailRows, RowArrays.addRow, List.append_assoc]
    rfl

end RowArrays

/-- The arrays of the function: the sizes are those that the tables are built with. -/
theorem fillRows_summed (ddwRowNum ddwMaxNodeNum : Nat) :
    (fillRows ddwRowNum ddwMaxNodeNum).Summed ∧
      (fillRows ddwRowNum ddwMaxNodeNum).auRowsNodeNum =
        calcNodeNumForEachRow ddwRowNum ddwMaxNodeNum := by
  have hempty := RowArrays.summed_empty
  unfold fillRows calcNodeNumForEachRow
  by_cases h1 : ddwRowNum = 1
  · simp only [if_pos h1]
    exact ⟨hempty.addRow _, rfl⟩
  by_cases h2 : ddwRowNum = 2
  · simp only [if_neg h1, if_pos h2]
    exact ⟨(hempty.addRow _).addRow _, rfl⟩
  by_cases h3 : ddwRowNum = 3
  · simp only [if_neg h1, if_neg h2, if_pos h3]
    exact ⟨((hempty.addRow _).addRow _).addRow _, rfl⟩
  · simp only [if_neg h1, if_neg h2, if_neg h3]
    exact RowArrays.Summed.fillTail (((hempty.addRow _).addRow _).addRow _)

/-! ## The rows -/

theorem tailRows_cases {r : Nat} : ∀ {j : Nat}, ∀ num ∈ tailRows r j,
    num = 0 ∨ num = 1 ∨ num.Prime := by
  induction r with
  | zero => nofun
  | succ r ih =>
    intro j num hnum
    rcases List.mem_cons.mp hnum with rfl | hnum
    · exact maxPrime_cases j
    · exact ih num hnum

/-- From row to row the primes go down, until there is none. -/
theorem tailRows_decreasing {r : Nat} : ∀ {j i : Nat}, i + 1 < r →
    (tailRows r j).getD (i + 1) 0 < (tailRows r j).getD i 0 ∨
      (tailRows r j).getD i 0 = 0 ∧ (tailRows r j).getD (i + 1) 0 = 0 := by
  induction r with
  | zero => nofun
  | succ r ih =>
    intro j i hi
    match i, r with
    | 0, 0 => omega
    | 0, r + 1 =>
      rcases Nat.eq_zero_or_pos (maxPrime j) with hzero | hpos
      · refine .inr ⟨hzero, ?_⟩
        show maxPrime (maxPrime j) = 0
        rw [hzero]
        rfl
      · exact .inl (maxPrime_lt hpos)
    | i + 1, r => exact ih (j := maxPrime j) (i := i) (by omega)

/-- The first three rows, and the others. -/
theorem calcNodeNumForEachRow_shape {ddwRowNum : Nat} (h : 1 ≤ ddwRowNum) (ddwMaxNodeNum : Nat) :
    ∃ front r j, calcNodeNumForEachRow ddwRowNum ddwMaxNodeNum = front ++ tailRows r j ∧
      front.length + r = ddwRowNum ∧ front.length ≤ 3 ∧ (r = 0 ∨ front.length = 3) ∧
      ∀ num ∈ front, num = 0 ∨ num = 1 ∨ num.Prime := by
  unfold calcNodeNumForEachRow
  by_cases h1 : ddwRowNum = 1
  · simp only [if_pos h1]
    exact ⟨[_], 0, 0, rfl, h1.symm, by simp, .inl rfl, by simp [maxPrime_cases]⟩
  by_cases h2 : ddwRowNum = 2
  · simp only [if_neg h1, if_pos h2]
    exact ⟨[_, _], 0, 0, rfl, h2.symm, by simp, .inl rfl, by simp [maxPrime_cases]⟩
  by_cases h3 : ddwRowNum = 3
  · simp only [if_neg h1, if_neg h2, if_pos h3]
    exact ⟨[_, _, _], 0, 0, rfl, h3.symm, by simp, .inl rfl, by simp [maxPrime_cases]⟩
  · simp only [if_neg h1, if_neg h2, if_neg h3]
    refine ⟨[_, _, _], ddwRowNum - 3, _, rfl, ?_, by simp, .inr rfl, by simp [maxPrime_cases]⟩
    show 3 + (ddwRowNum - 3) = ddwRowNum
    omega

/-- `Search` comes to the sum of the rows it has passed. -/
theorem rowPointer_eq (ht ns : Nat) (nums : List Nat) (i : Nat) :
    rowPointer ht ns nums i = htGetAt ht (nums.take i).sum ns := by
  induction i with
  | zero => rfl
  | succ i ih =>
    rw [rowPointer, ih, List.take_add_one, List.sum_append, htGetAt, htGetAt, htGetAt, Nat.mul_add,
      Nat.add_assoc]
    rcases Nat.lt_or_ge i nums.length with hlt | hge
    · rw [List.getD_eq_getElem _ _ hlt, List.getElem?_eq_getElem hlt]
      rfl
    · rw [List.getD_eq_default _ _ hge, List.getElem?_eq_none hge]
      rfl

/-- **The geometry of the rows.** -/
theorem fillRows_geometry {ddwRowNum : Nat} (h : 1 ≤ ddwRowNum) (ddwMaxNodeNum : Nat) :
    RowGeometry ddwRowNum ddwMaxNodeNum (fillRows ddwRowNum ddwMaxNodeNum) ∧
      ∀ n, 4 ≤ n → IsGreatest {p | p.Prime ∧ p < n} (maxPrime n) := by
  refine ⟨?_, fun n => maxPrime_isGreatest⟩
  obtain ⟨hsummed, hnums⟩ := fillRows_summed ddwRowNum ddwMaxNodeNum
  obtain ⟨front, r, j, hshape, hlen, hthree, htail, hfront⟩ :=
    calcNodeNumForEachRow_shape h ddwMaxNodeNum
  have hsum := sum_calcNodeNumForEachRow_le ddwRowNum ddwMaxNodeNum
  generalize fillRows ddwRowNum ddwMaxNodeNum = a at hsummed hnums ⊢
  rw [← hnums] at hsum hshape
  have hlength : a.auRowsNodeNum.length = ddwRowNum := by
    rw [hshape, List.length_append, length_tailRows, hlen]
  have hstarts : ∀ i < ddwRowNum, a.auRowsStartNode.getD i 0 = (a.auRowsNodeNum.take i).sum :=
    fun i hi => hsummed.starts i (hlength ▸ hi)
  refine ⟨hlength, hsummed.length.trans hlength, hstarts, fun ht ns i hi => ?_,
    fun ht ns i hi => ?_, ⟨hsummed.total, by rw [hsummed.total]; exact hsum⟩, fun num hnum => ?_,
    fun i hi hlast => ?_⟩
  · rw [rowPointer_eq, hstarts i hi]
  · rw [rowPointer_eq, hstarts i hi, List.take_add_one, List.sum_append,
      List.getD_eq_getElem _ _ (hlength ▸ hi), List.getElem?_eq_getElem (hlength ▸ hi)]
    rfl
  · rw [hshape] at hnum
    exact (List.mem_append.mp hnum).elim (hfront num) (tailRows_cases num)
  · have h3 : front.length = 3 := by omega
    obtain ⟨k, rfl⟩ := Nat.exists_eq_add_of_le hi
    rw [hshape, List.getD_append_right _ _ _ _ (by omega), List.getD_append_right _ _ _ _ (by omega),
      h3, Nat.add_sub_cancel_left, Nat.add_assoc, Nat.add_sub_cancel_left]
    exact tailRows_decreasing (by omega)

theorem fillRows_geometry_four : RowGeometry 4 1000 (fillRows 4 1000) ∧
    ∀ n, 4 ≤ n → IsGreatest {p | p.Prime ∧ p < n} (maxPrime n) :=
  fillRows_geometry (by decide) 1000

end MysqlProxy
