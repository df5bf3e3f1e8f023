/-
  How `InitFromBuffer` divides its buffer.

      MhtHeader | the nodes, row after row | LinkTableHead | the blocks

  The index gets a share of the whole buffer (`EvaluateHashNodeNum`), the rows shares of that
  (`CalcNodeNumForEachRow`); the two heads are subtracted afterwards, in unsigned arithmetic, and
  the last check is made on what the subtractions have left.  `Layout` holds the numbers on the way
  and `Layout.Exact` says of each of them that it is what it would be without the limits of a 64-bit
  word.  It comes down to two inequalities (`initFromBuffer_fits_iff`).

  `MaxPrime` returns `1` or an odd prime (`Accepted`), so a row is empty exactly when its share has
  no such number below it (`maxPrime_pos`, `tailRows_pos`).
-/
import MysqlProxy.Ht.MhtRun
import Mathlib.Data.Nat.Prime.Defs
import Mathlib.Order.Interval.Finset.Nat

namespace MysqlProxy

/-! ## `MaxPrime` -/

/-- The numbers that the test of `MaxPrime` lets through. -/
def Accepted (n : Nat) : Prop := n = 1 ∨ n.Prime ∧ n ≠ 2

instance (n : Nat) : Decidable (Accepted n) := inferInstanceAs (Decidable (_ ∨ _ ∧ _))

/-- The trial division runs to its end when it meets no divisor. -/
theorem trialDivision_eq_iff {n s : Nat} : ∀ {r k : Nat}, k ≤ s + 1 → s + 1 ≤ k + r →
    (trialDivision n s r k = s + 1 ↔ ∀ m, k ≤ m → m ≤ s → ¬ m ∣ n) := by
  intro r
  induction r with
  | zero =>
    intro k hk hr
    rw [trialDivision]
    exact iff_of_true (by omega) fun m h1 h2 => by omega
  | succ r ih =>
    intro k hk hr
    rw [trialDivision]
    by_cases hks : k ≤ s
    · rw [if_pos hks]
      by_cases hdvd : n % k = 0
      · rw [if_pos hdvd]
        exact iff_of_false (by omega) fun h => h k (Nat.le_refl k) hks (Nat.dvd_of_mod_eq_zero hdvd)
      · rw [if_neg hdvd, ih (by omega) (by omega)]
        refine ⟨fun h m h1 h2 => ?_, fun h m h1 h2 => h m (by omega) h2⟩
        rcases Nat.eq_or_lt_of_le h1 with rfl | hlt
        · exact fun hd => hdvd (Nat.mod_eq_zero_of_dvd hd)
        · exact h m hlt h2
    · rw [if_neg hks]
      exact iff_of_true (by omega) fun m h1 h2 => by omega

theorem sqrt_le_ceilSqrt (n : Nat) : n.sqrt ≤ ceilSqrt n := by
  unfold ceilSqrt
  split <;> omega

theorem ceilSqrt_lt {n : Nat} (h : 3 ≤ n) : ceilSqrt n < n := by
  have hsq := Nat.sqrt_le n
  unfold ceilSqrt
  split
  · exact Nat.sqrt_lt_self (by omega)
  · -- a root that is one short of `n` would be too large
    have hlt : n.sqrt < n := Nat.sqrt_lt_self (by omega)
    by_contra hge
    obtain hn : n = n.sqrt + 1 := by omega
    have h2 : 2 ≤ n.sqrt := by omega
    have := Nat.mul_le_mul_right n.sqrt h2
    omega

/-- The test of `MaxPrime`. -/
theorem accepts_iff (n : Nat) :
    trialDivision n (ceilSqrt n) (ceilSqrt n) 2 = ceilSqrt n + 1 ↔ Accepted n := by
  rcases Nat.lt_or_ge n 3 with hlt | hge
  · obtain rfl | rfl | rfl : n = 0 ∨ n = 1 ∨ n = 2 := by omega
    · exact iff_of_false (by decide +kernel) (by decide)
    · exact iff_of_true (by decide +kernel) (.inl rfl)
    · exact iff_of_false (by decide +kernel) (by decide)
  · have hs := sqrt_le_ceilSqrt n
    have hc := ceilSqrt_lt hge
    have h1 : 1 ≤ ceilSqrt n := Nat.le_trans (Nat.sqrt_pos.mpr (by omega)) hs
    rw [trialDivision_eq_iff (by omega) (by omega)]
    constructor
    · intro h
      exact .inr ⟨Nat.prime_def_le_sqrt.mpr ⟨by omega, fun m h2 hm => h m h2 (by omega)⟩, by omega⟩
    · rintro (h | ⟨hp, -⟩) m h2 hm hd
      · omega
      · rcases (Nat.dvd_prime hp).mp hd with rfl | rfl <;> omega

theorem maxPrime_succ (n : Nat) : maxPrime (n + 1) = if Accepted n then n else maxPrime n := by
  rw [maxPrime]
  exact if_congr (accepts_iff n) rfl rfl

theorem maxPrime_le (n : Nat) : maxPrime n ≤ n - 1 := by
  induction n with
  | zero => exact Nat.le_refl 0
  | succ n ih =>
    rw [maxPrime_succ]
    split <;> omega

/-- How many numbers below `n` the test lets through. -/
def acceptedBelow (n : Nat) : Nat := ((Finset.range n).filter Accepted).card

theorem acceptedBelow_succ (n : Nat) :
    acceptedBelow (n + 1) = acceptedBelow n + if Accepted n then 1 else 0 := by
  rw [acceptedBelow, acceptedBelow, Finset.range_add_one, Finset.filter_insert]
  split
  · rw [Finset.card_insert_of_notMem (by simp)]
  · rfl

/-- `MaxPrime` goes down by one of them. -/
theorem acceptedBelow_maxPrime (n : Nat) :
    acceptedBelow n = if 0 < maxPrime n then acceptedBelow (maxPrime n) + 1 else 0 := by
  induction n with
  | zero => rfl
  | succ n ih =>
    rw [acceptedBelow_succ, maxPrime_succ]
    by_cases ha : Accepted n
    · have hpos : 0 < n := by
        rcases ha with rfl | ⟨hp, -⟩
        · exact Nat.one_pos
        · exact hp.pos
      rw [if_pos ha, if_pos ha, if_pos hpos]
    · rw [if_neg ha, if_neg ha, Nat.add_zero]
      exact ih

/-- A share of one node makes an empty row, a share of two does not. -/
theorem maxPrime_pos {n : Nat} : 0 < maxPrime n ↔ 2 ≤ n := by
  have hone : Accepted 1 := .inl rfl
  induction n with
  | zero => exact iff_of_false (by decide) (by decide)
  | succ n ih =>
    rw [maxPrime_succ]
    split
    · rename_i ha
      rcases ha with rfl | ⟨hp, -⟩
      · exact iff_of_true Nat.one_pos (Nat.le_refl 2)
      · exact iff_of_true hp.pos (by have := hp.two_le; omega)
    · rename_i ha
      have : n ≠ 1 := fun h1 => ha (h1 ▸ hone)
      exact ih.trans (by omega)

/-! ## The rows -/

/-- The rows from the third on are not empty as long as the numbers last. -/
theorem tailRows_pos {k : Nat} : ∀ {j : Nat}, (∀ n ∈ tailRows k j, 1 ≤ n) ↔ k ≤ acceptedBelow j := by
  induction k with
  | zero =>
    intro j
    exact iff_of_true (by simp [tailRows]) (Nat.zero_le _)
  | succ k ih =>
    intro j
    rw [tailRows, List.forall_mem_cons, ih, acceptedBelow_maxPrime j]
    by_cases hpos : 0 < maxPrime j
    · rw [if_pos hpos]
      omega
    · rw [if_neg hpos]
      omega

theorem sum_tailRows_le (k j : Nat) : (tailRows k j).sum ≤ k * j := by
  induction k generalizing j with
  | zero => simp [tailRows]
  | succ k ih =>
    have hle : maxPrime j ≤ j := Nat.le_trans (maxPrime_le j) (Nat.sub_le j 1)
    calc (tailRows (k + 1) j).sum = maxPrime j + (tailRows k (maxPrime j)).sum := by
          rw [tailRows, List.sum_cons]
      _ ≤ j + k * j := Nat.add_le_add hle (Nat.le_trans (ih _) (Nat.mul_le_mul_left k hle))
      _ = (k + 1) * j := by rw [Nat.succ_mul, Nat.add_comm]

/-- A part of `n`, with the product taken in 64 bits, is at most `n`. -/
theorem maxPrime_share_le (n a : Nat) (ha : a ≤ 100) (c : Prop) [Decidable c] :
    maxPrime (if c then n else n * a % 2 ^ 64 / 100) ≤ n := by
  refine Nat.le_trans (maxPrime_le _) (Nat.le_trans (Nat.sub_le _ 1) ?_)
  split
  · exact Nat.le_refl n
  · calc n * a % 2 ^ 64 / 100 ≤ n * 100 / 100 :=
          Nat.div_le_div_right (Nat.le_trans (Nat.mod_le _ _) (Nat.mul_le_mul_left n ha))
      _ = n := Nat.mul_div_cancel n (by decide)

/-- The rows take no more nodes than there are. -/
theorem sum_calcNodeNumForEachRow_le (ddwRowNum n : Nat) :
    (calcNodeNumForEachRow ddwRowNum n).sum ≤ n := by
  have h0 := maxPrime_share_le n 70 (by decide) (ddwRowNum = 1)
  unfold calcNodeNumForEachRow
  by_cases c1 : ddwRowNum = 1
  · simpa only [if_pos c1, List.sum_cons, List.sum_nil, Nat.add_zero] using h0
  simp only [if_neg c1] at h0 ⊢
  generalize maxPrime (n * 70 % 2 ^ 64 / 100) = r0 at h0 ⊢
  have h1 := maxPrime_share_le (n - r0) 10 (by decide) (ddwRowNum = 2)
  by_cases c2 : ddwRowNum = 2
  · simp only [if_pos c2, List.sum_cons, List.sum_nil] at h1 ⊢
    omega
  simp only [if_neg c2] at h1 ⊢
  generalize maxPrime ((n - r0) * 10 % 2 ^ 64 / 100) = r1 at h1 ⊢
  have h2 := maxPrime_share_le (n - r0 - r1) 5 (by decide) (ddwRowNum = 3)
  by_cases c3 : ddwRowNum = 3
  · simp only [if_pos c3, List.sum_cons, List.sum_nil] at h2 ⊢
    omega
  simp only [if_neg c3] at h2 ⊢
  generalize maxPrime ((n - r0 - r1) * 5 % 2 ^ 64 / 100) = r2 at h2 ⊢
  have h3 := sum_tailRows_le (ddwRowNum - 3) ((n - r0 - r1 - r2) / (ddwRowNum - 3))
  have h4 := Nat.mul_div_le (n - r0 - r1 - r2) (ddwRowNum - 3)
  simp only [List.sum_cons]
  omega

/-- No row is empty: the shares of the first three rows have two nodes each, and below the share of
    the others there are as many numbers for `MaxPrime` as there are rows left. -/
def RowsFilled (ddwRowNum n : Nat) : Prop :=
  let share0 := if ddwRowNum = 1 then n else n * 70 % 2 ^ 64 / 100
  2 ≤ share0 ∧ (ddwRowNum ≠ 1 →
    let left1 := n - maxPrime share0
    let share1 := if ddwRowNum = 2 then left1 else left1 * 10 % 2 ^ 64 / 100
    2 ≤ share1 ∧ (ddwRowNum ≠ 2 →
      let left2 := left1 - maxPrime share1
      let share2 := if ddwRowNum = 3 then left2 else left2 * 5 % 2 ^ 64 / 100
      2 ≤ share2 ∧ (ddwRowNum ≠ 3 →
        ddwRowNum - 3 ≤ acceptedBelow ((left2 - maxPrime share2) / (ddwRowNum - 3)))))

/-- **The rows** are all filled exactly when the shares are large enough. -/
theorem calcNodeNumForEachRow_pos {ddwRowNum n : Nat} :
    (∀ r ∈ calcNodeNumForEachRow ddwRowNum n, 1 ≤ r) ↔ RowsFilled ddwRowNum n := by
  unfold calcNodeNumForEachRow RowsFilled
  by_cases c1 : ddwRowNum = 1
  · simp only [c1, ↓reduceIte, ne_eq, not_true_eq_false, false_implies, and_true,
      List.forall_mem_singleton]
    exact maxPrime_pos
  simp only [c1, ↓reduceIte, ne_eq, not_false_eq_true, true_implies]
  by_cases c2 : ddwRowNum = 2
  · simp only [c2, ↓reduceIte, not_true_eq_false, false_implies, and_true, List.forall_mem_cons,
      List.not_mem_nil, implies_true]
    exact and_congr maxPrime_pos maxPrime_pos
  simp only [c2, ↓reduceIte, not_false_eq_true, true_implies]
  by_cases c3 : ddwRowNum = 3
  · simp only [c3, ↓reduceIte, not_true_eq_false, false_implies, and_true, List.forall_mem_cons,
      List.not_mem_nil, implies_true]
    exact and_congr maxPrime_pos (and_congr maxPrime_pos maxPrime_pos)
  simp only [c3, ↓reduceIte, not_false_eq_true, true_implies, List.forall_mem_cons]
  exact and_congr maxPrime_pos (and_congr maxPrime_pos (and_congr maxPrime_pos tailRows_pos))

/-! ## The layout -/

/-- The numbers of `InitFromBuffer`: those it writes into the header, and two on the way. -/
structure Layout where
  ddwHashNodeSize : Nat
  ddwMemRatio : Nat
  /-- The nodes that the share of the index has room for. -/
  ddwMaxNodeNum : Nat
  auRowsNodeNum : List Nat
  ddwDataSize : Nat
  ddwDataBlockNum : Nat

/-- `header->ddwHashNodeNum`. -/
def Layout.ddwHashNodeNum (l : Layout) : Nat := l.auRowsNodeNum.sum

namespace MultiHashTable

/-- How `InitFromBuffer` computes them. -/
def layout (ddwBufferSize wMaxKeyLen wRowNum dwIndexRatio ddwBlockSize : Nat) : Layout :=
  let ddwNodeSize := evaluateHashNodeSize wMaxKeyLen
  let ddwMemRatio := nodeNumRatio2MemSizeRatio ddwNodeSize ddwBlockSize dwIndexRatio
  let ddwMaxNodeNum := evaluateHashNodeNum ddwBufferSize ddwNodeSize ddwMemRatio
  let rows := calcNodeNumForEachRow wRowNum ddwMaxNodeNum
  let ddwDataSize := sub64 (sub64 ddwBufferSize sizeofMhtHeader) (rows.sum * ddwNodeSize)
  { ddwHashNodeSize := ddwNodeSize
    ddwMemRatio := ddwMemRatio
    ddwMaxNodeNum := ddwMaxNodeNum
    auRowsNodeNum := rows
    ddwDataSize := ddwDataSize
    ddwDataBlockNum := evalBlockCount ddwDataSize ddwBlockSize }

/-- What `InitFromBuffer` checks of its arguments. -/
structure Accepts (ddwBufferSize wMaxKeyLen wRowNum dwIndexRatio ddwBlockSize : Nat) : Prop where
  buffer : 1024 * 1024 * 2 ≤ ddwBufferSize
  keyLen : 1 ≤ wMaxKeyLen ∧ wMaxKeyLen ≤ HASH_MAX_KEY_LENGTH
  rowNum : 1 ≤ wRowNum ∧ wRowNum ≤ HASH_MAX_ROW
  ratio : 1 ≤ dwIndexRatio ∧ dwIndexRatio ≤ 1000
  block : 32 ≤ ddwBlockSize ∧ ddwBlockSize ≤ 8192

section Init

variable {ddwBufferSize wMaxKeyLen wRowNum dwIndexRatio ddwBlockSize : Nat}
  {hashFunc : List UInt8 → UInt32} {bUseAccessSeq : Bool} {t : MultiHashTable}

/-- The table of an `InitFromBuffer` that returned `0`. -/
theorem initFromBuffer_layout
    (h : initFromBuffer ddwBufferSize wMaxKeyLen wRowNum dwIndexRatio ddwBlockSize hashFunc
      bUseAccessSeq = .ok t) :
    let l := layout ddwBufferSize wMaxKeyLen wRowNum dwIndexRatio ddwBlockSize
    Accepts ddwBufferSize wMaxKeyLen wRowNum dwIndexRatio ddwBlockSize ∧
      t.ddwHashNodeSize = l.ddwHashNodeSize ∧ t.ddwHashNodeNum = l.ddwHashNodeNum ∧
      t.ddwRowNum = wRowNum ∧ t.auRowsNodeNum = (fun i => l.auRowsNodeNum.getD i 0) ∧
      LinkTable.init l.ddwDataSize l.ddwDataBlockNum ddwBlockSize = .ok t.lt := by
  unfold initFromBuffer at h
  split at h
  · cases h
  · rename_i hargs
    dsimp only at h
    split at h
    · cases h
    · rename_i lt hlt
      obtain rfl := (Except.ok.inj h).symm
      refine ⟨⟨?_, ⟨?_, ?_⟩, ⟨?_, ?_⟩, ⟨?_, ?_⟩, ?_, ?_⟩, rfl, rfl, rfl, rfl, hlt⟩ <;> omega

/-- The products and differences of `CalcNodeNumForEachRow`, in its order. -/
def RowsExact (ddwRowNum n : Nat) : Prop :=
  let r0 := maxPrime (if ddwRowNum = 1 then n else n * 70 % 2 ^ 64 / 100)
  r0 ≤ n ∧ (ddwRowNum ≠ 1 → n * 70 < 2 ^ 64 ∧
    let left1 := n - r0
    let r1 := maxPrime (if ddwRowNum = 2 then left1 else left1 * 10 % 2 ^ 64 / 100)
    r1 ≤ left1 ∧ (ddwRowNum ≠ 2 → left1 * 10 < 2 ^ 64 ∧
      let left2 := left1 - r1
      let r2 := maxPrime (if ddwRowNum = 3 then left2 else left2 * 5 % 2 ^ 64 / 100)
      r2 ≤ left2 ∧ (ddwRowNum ≠ 3 → left2 * 5 < 2 ^ 64)))

/-- No product and no difference of `InitFromBuffer` and `LinkTable::Init` wraps. -/
structure Exact (ddwBufferSize wRowNum dwIndexRatio ddwBlockSize : Nat) (l : Layout) : Prop where
  ratioMul : dwIndexRatio * l.ddwHashNodeSize < 2 ^ 64
  memMul : ddwBufferSize * 100 < 2 ^ 64
  memSub : ddwBufferSize * 100 % 2 ^ 64 / (100 + l.ddwMemRatio) ≤ ddwBufferSize
  rows : RowsExact wRowNum l.ddwMaxNodeNum
  headSub : sizeofMhtHeader ≤ ddwBufferSize
  nodesMul : l.ddwHashNodeNum * l.ddwHashNodeSize < 2 ^ 64
  nodesSub : l.ddwHashNodeNum * l.ddwHashNodeSize ≤ sub64 ddwBufferSize sizeofMhtHeader
  ltHeadSub : sizeofLinkTableHead ≤ l.ddwDataSize
  /-- `EvalBufferSize`. -/
  blocksMul : sizeofLinkTableHead + l.ddwDataBlockNum * ddwBlockSize < 2 ^ 64
  /-- `ddwBlockCount - 1`. -/
  blocksSub : 1 ≤ l.ddwDataBlockNum

/-- The four parts of the buffer lie behind each other in it. -/
def Fits (ddwBufferSize ddwBlockSize : Nat) (l : Layout) : Prop :=
  sizeofMhtHeader + l.ddwHashNodeNum * l.ddwHashNodeSize + sizeofLinkTableHead +
    l.ddwDataBlockNum * ddwBlockSize ≤ ddwBufferSize

instance (ddwBufferSize ddwBlockSize : Nat) (l : Layout) :
    Decidable (Fits ddwBufferSize ddwBlockSize l) := inferInstanceAs (Decidable (_ ≤ _))

/-- The nodes that the share of the index has room for, without the limits of a word. -/
def indexNodes (ddwBufferSize wMaxKeyLen dwIndexRatio ddwBlockSize : Nat) : Nat :=
  (ddwBufferSize - ddwBufferSize * 100 /
    (100 + dwIndexRatio * (wMaxKeyLen + sizeofMhtNode) / ddwBlockSize)) /
      (wMaxKeyLen + sizeofMhtNode)

/-- The buffer is below `2 ^ 64 / 100` bytes, and beside its rows there is room for both heads and
    one block. -/
def HasRoom (ddwBufferSize wMaxKeyLen wRowNum dwIndexRatio ddwBlockSize : Nat) : Prop :=
  ddwBufferSize * 100 < 2 ^ 64 ∧
    sizeofMhtHeader + sizeofLinkTableHead + ddwBlockSize +
      (calcNodeNumForEachRow wRowNum
        (indexNodes ddwBufferSize wMaxKeyLen dwIndexRatio ddwBlockSize)).sum *
        (wMaxKeyLen + sizeofMhtNode) ≤ ddwBufferSize

theorem evaluateHashNodeNum_exact (h : ddwBufferSize * 100 < 2 ^ 64) :
    (layout ddwBufferSize wMaxKeyLen wRowNum dwIndexRatio ddwBlockSize).ddwMaxNodeNum =
      indexNodes ddwBufferSize wMaxKeyLen dwIndexRatio ddwBlockSize := by
  have hle : ddwBufferSize * 100 /
      (100 + dwIndexRatio * (wMaxKeyLen + sizeofMhtNode) / ddwBlockSize) ≤ ddwBufferSize :=
    Nat.div_le_of_le_mul (by rw [Nat.mul_comm]; exact Nat.mul_le_mul_right _ (Nat.le_add_right _ _))
  simp only [layout, evaluateHashNodeNum, evaluateHashNodeSize, nodeNumRatio2MemSizeRatio,
    indexNodes]
  rw [Nat.mod_eq_of_lt h, sub64_of_le hle]

/-- The share of the index is a part of the buffer. -/
theorem maxNodes_mul_le (h : ddwBufferSize * 100 < 2 ^ 64) :
    (layout ddwBufferSize wMaxKeyLen wRowNum dwIndexRatio ddwBlockSize).ddwMaxNodeNum *
      (wMaxKeyLen + sizeofMhtNode) ≤ ddwBufferSize := by
  rw [evaluateHashNodeNum_exact h, indexNodes]
  exact Nat.le_trans (Nat.div_mul_le_self _ _) (Nat.sub_le _ _)

/-- Rows of fewer than `2 ^ 57` nodes are computed exactly. -/
theorem rowsExact_of_lt {ddwRowNum n : Nat} (h : n < 2 ^ 57) : RowsExact ddwRowNum n := by
  have h0 := maxPrime_share_le n 70 (by decide) (ddwRowNum = 1)
  refine ⟨h0, fun _ => ⟨by omega, ?_⟩⟩
  generalize maxPrime (if ddwRowNum = 1 then n else n * 70 % 2 ^ 64 / 100) = r0
  have h1 := maxPrime_share_le (n - r0) 10 (by decide) (ddwRowNum = 2)
  refine ⟨h1, fun _ => ⟨by omega, ?_⟩⟩
  generalize maxPrime (if ddwRowNum = 2 then n - r0 else (n - r0) * 10 % 2 ^ 64 / 100) = r1
  exact ⟨maxPrime_share_le _ 5 (by decide) _, fun _ => by omega⟩

/-- **The layout fits**, and nothing on the way has wrapped, exactly when there is room. -/
theorem initFromBuffer_fits_iff
    (h : initFromBuffer ddwBufferSize wMaxKeyLen wRowNum dwIndexRatio ddwBlockSize hashFunc
      bUseAccessSeq = .ok t) :
    let l := layout ddwBufferSize wMaxKeyLen wRowNum dwIndexRatio ddwBlockSize
    (t.ddwHashNodeNum = l.ddwHashNodeNum ∧ t.ddwHashNodeSize = l.ddwHashNodeSize ∧
        Fits ddwBufferSize ddwBlockSize l ∧
        Exact ddwBufferSize wRowNum dwIndexRatio ddwBlockSize l) ↔
      HasRoom ddwBufferSize wMaxKeyLen wRowNum dwIndexRatio ddwBlockSize := by
  intro l
  obtain ⟨hacc, hsize, hnum, -⟩ := initFromBuffer_layout h
  have hnode : l.ddwHashNodeSize = wMaxKeyLen + sizeofMhtNode := rfl
  have hdata : l.ddwDataSize =
      sub64 (sub64 ddwBufferSize sizeofMhtHeader) (l.ddwHashNodeNum * l.ddwHashNodeSize) := rfl
  have hblocks : l.ddwDataBlockNum = sub64 l.ddwDataSize sizeofLinkTableHead / ddwBlockSize := rfl
  have hhead : sizeofMhtHeader ≤ ddwBufferSize := Nat.le_trans (by decide) hacc.buffer
  have hbs := hacc.block.1
  have hkey := hacc.keyLen.2
  have hratio := hacc.ratio.2
  rw [sub64_of_le hhead] at hdata
  by_cases h100 : ddwBufferSize * 100 < 2 ^ 64
  · have hrows : l.ddwHashNodeNum = (calcNodeNumForEachRow wRowNum
        (indexNodes ddwBufferSize wMaxKeyLen dwIndexRatio ddwBlockSize)).sum := by
      rw [← @evaluateHashNodeNum_exact _ _ wRowNum _ _ h100]
      rfl
    rw [HasRoom, ← hrows, ← hnode]
    constructor
    · rintro ⟨-, -, -, hex⟩
      have hsub := hex.nodesSub
      have hlt := hex.ltHeadSub
      have hone := hex.blocksSub
      rw [sub64_of_le hhead] at hsub
      rw [hdata, sub64_of_le hsub] at hlt
      rw [hblocks, Nat.one_le_div_iff (by omega), hdata, sub64_of_le hsub, sub64_of_le hlt] at hone
      exact ⟨h100, by omega⟩
    · rintro ⟨-, hroom⟩
      have hsub : l.ddwHashNodeNum * l.ddwHashNodeSize ≤ ddwBufferSize - sizeofMhtHeader := by omega
      rw [sub64_of_le hsub] at hdata
      have hlt : sizeofLinkTableHead ≤ l.ddwDataSize := by omega
      rw [sub64_of_le hlt] at hblocks
      have hmul : l.ddwDataBlockNum * ddwBlockSize ≤ l.ddwDataSize - sizeofLinkTableHead := by
        rw [hblocks]
        exact Nat.div_mul_le_self _ _
      have hone : 1 ≤ l.ddwDataBlockNum := by
        rw [hblocks, Nat.one_le_div_iff (by omega)]
        omega
      have hmax := @maxNodes_mul_le ddwBufferSize wMaxKeyLen wRowNum dwIndexRatio ddwBlockSize
        h100
      have hfew : l.ddwMaxNodeNum < 2 ^ 57 := by
        have h16 : l.ddwMaxNodeNum * 16 ≤ l.ddwMaxNodeNum * (wMaxKeyLen + sizeofMhtNode) :=
          Nat.mul_le_mul_left _ (Nat.le_add_left 16 wMaxKeyLen)
        have hmax' : l.ddwMaxNodeNum * (wMaxKeyLen + sizeofMhtNode) ≤ ddwBufferSize := hmax
        omega
      have hprod : dwIndexRatio * l.ddwHashNodeSize ≤ 1000 * (10240 + 16) := by
        rw [hnode]
        exact Nat.mul_le_mul hratio (Nat.add_le_add_right hkey 16)
      refine ⟨hnum, hsize, ?_, ?_, h100, ?_, rowsExact_of_lt hfew, hhead, by omega, ?_, hlt,
        by omega, hone⟩
      · rw [Fits]
        omega
      · omega
      · rw [Nat.mod_eq_of_lt h100]
        exact Nat.div_le_of_le_mul
          (by rw [Nat.mul_comm]; exact Nat.mul_le_mul_right _ (Nat.le_add_right _ _))
      · rw [sub64_of_le hhead]
        exact hsub
  · exact iff_of_false (fun hp => h100 hp.2.2.2.memMul) (fun hp => h100 hp.1)

end Init

/-- The table of two rows with its 76 nodes and three blocks. -/
theorem initFromBuffer_fits_smallTable :
    Fits 2118764 128 (layout 2118764 239 2 1 128) ∧
      Exact 2118764 2 1 128 (layout 2118764 239 2 1 128) :=
  ((initFromBuffer_fits_iff init_smallTable).mpr (by
    have hnodes : indexNodes 2118764 239 1 128 = 82 := by decide +kernel
    have hrows : calcNodeNumForEachRow 2 82 = [53, 23] := by decide +kernel
    rw [HasRoom, hnodes, hrows]
    decide)).2.2

/-- The rows for the default parameters (keys of 8 bytes, 20 rows, ratio 50, blocks of 128 bytes) in
    the smallest buffer. -/
def defaultRows : List Nat :=
  [5039, 211, 97, 107, 103, 101, 97, 89, 83, 79, 73, 71, 67, 61, 59, 53, 47, 43, 41, 37]

/-- **The block store that is larger than memory.**  With the default parameters and a buffer of
    2 MB the index leaves 889520 bytes, which is less than `LinkTableHead` alone.  The difference
    wraps, `InitFromBuffer` returns `0`, and the table has more than `2 ^ 56` blocks. -/
theorem defaults_not_fit :
    (∃ t, initFromBuffer 2097152 8 20 50 128 defaultHashFunc false = .ok t) ∧
      (layout 2097152 8 20 50 128).ddwDataBlockNum = 144115188075854628 ∧
      ¬ Fits 2097152 128 (layout 2097152 8 20 50 128) ∧
      ¬ Exact 2097152 20 50 128 (layout 2097152 8 20 50 128) := by
  have hratio : nodeNumRatio2MemSizeRatio 24 128 50 = 9 := by decide
  have hnum : evaluateHashNodeNum 2097152 24 9 = 7215 := by decide +kernel
  have hrows : calcNodeNumForEachRow 20 7215 = defaultRows := by decide +kernel
  have hsize : evaluateHashNodeSize 8 = 24 := rfl
  have hlayout : layout 2097152 8 20 50 128 =
      ⟨24, 9, 7215, defaultRows, 889520, 144115188075854628⟩ := by
    simp only [layout, hsize, hratio, hnum, hrows]
    rfl
  refine ⟨?_, by rw [hlayout], ?_, fun hex => ?_⟩
  · rw [initFromBuffer, if_neg (by decide)]
    simp only [hsize, hratio, hnum, hrows]
    exact ⟨_, rfl⟩
  · rw [hlayout]
    decide
  · have hlt := hex.ltHeadSub
    rw [hlayout] at hlt
    exact absurd hlt (by decide)

end MultiHashTable

end MysqlProxy
