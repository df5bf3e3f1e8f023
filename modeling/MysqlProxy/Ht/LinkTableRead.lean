/-
  Reading a `LinkTable` whose blocks may hold anything.

  A reader takes no lock, so `GetData` may meet links, lengths and cycles that no writer left
  behind.  `traceData` is its loop with everything observable written down: the blocks it visits,
  every `memcpy` with its place in the caller's buffer, and what it returns.  Nothing stops it early
  but the checks of the source, so here the loop may also run on for ever (`none`, whatever the
  fuel) and the copies may leave the buffer.

  Every block that is not the last one is copied in full, so `iDataLen` is a multiple of
  `BLOCK_DATA_LEN()` at the head of the loop, and the check against `iBufLen` ends it.  The check
  adds one block to `iDataLen` in an `int`.  For a buffer within one block of `2 ^ 31` bytes the sum
  can wrap; the block that is then copied is the one that does not fit (`SumWraps`).
-/
import MysqlProxy.Ht.LinkTableData

namespace MysqlProxy

namespace LinkTable

/-! ## The loop with its accesses -/

/-- One `memcpy` of `GetData`: `wBlockLen` bytes to `sDataBuf + iDataLen`. -/
structure BufCopy where
  iDataLen : Int
  wBlockLen : Nat
  deriving DecidableEq, Repr

/-- What a call of `GetData` did: the blocks it read, the copies, the length or the failure. -/
structure ReadTrace where
  visited : List Nat
  copies : List BufCopy
  result : Except LtError Int

/-- One more round in front. -/
def ReadTrace.round (ddwCurPos : Nat) (c : BufCopy) (r : ReadTrace) : ReadTrace :=
  ⟨ddwCurPos :: r.visited, c :: r.copies, r.result⟩

/-- The loop of `GetData`, `int` arithmetic included.  `none` when the fuel is used up. -/
def traceLoop (t : LinkTable) (iBufLen : Int) : Nat → Nat → Int → Option ReadTrace
  | 0, _, _ => none
  | n + 1, ddwNextPos, iDataLen =>
    if ddwNextPos = 0 then some ⟨[], [], .ok iDataLen⟩
    else if ddwNextPos ≥ t.ddwAllBlockCount then some ⟨[], [], .error .positionInsane⟩
    else if int32 (iDataLen + t.BLOCK_DATA_LEN) > iBufLen then
      some ⟨[], [], .error .notEnoughSpaceForData⟩
    else
      (traceLoop t iBufLen n (t.next ddwNextPos) (int32 (iDataLen + t.copyLen ddwNextPos))).map
        (ReadTrace.round ddwNextPos ⟨iDataLen, t.copyLen ddwNextPos⟩)

/-- `GetData` with a buffer of `iBufLen` bytes, for `fuel` rounds at most. -/
def traceData (t : LinkTable) (fuel ddwPos : Nat) (iBufLen : Int) : Option ReadTrace :=
  if iBufLen < t.BLOCK_DATA_LEN then some ⟨[], [], .error .badArgument⟩
  else traceLoop t iBufLen fuel ddwPos 0

/-- Usable positions, copies inside the buffer and no more bytes than it has, and a length that is
    not larger either. -/
structure ReadTrace.Safe (t : LinkTable) (iBufLen : Int) (r : ReadTrace) : Prop where
  visited : ∀ b ∈ r.visited, 1 ≤ b ∧ b < t.ddwAllBlockCount
  inside : ∀ c ∈ r.copies, 0 ≤ c.iDataLen ∧ c.iDataLen + c.wBlockLen ≤ iBufLen
  total : (r.copies.map BufCopy.wBlockLen).sum ≤ iBufLen.toNat
  length : ∀ m, r.result = .ok m → 0 ≤ m ∧ m ≤ iBufLen

/-- The call comes to an end, and what it did is safe. -/
def ReadSafe (t : LinkTable) (ddwPos : Nat) (iBufLen : Int) : Prop :=
  ∃ fuel r, t.traceData fuel ddwPos iBufLen = some r ∧ r.Safe t iBufLen

/-- The sum `iDataLen+(int)BLOCK_DATA_LEN()` wraps, and the copy behind it does not fit: as many
    full blocks as the buffer can hold are on the way, one more does not fit below `2 ^ 31`, and the
    block that is reached then has more to copy than there is room for. -/
def SumWraps (t : LinkTable) (ddwPos : Nat) (iBufLen : Int) : Prop :=
  t.BLOCK_DATA_LEN ≤ iBufLen ∧
    2 ^ 31 ≤ (iBufLen.toNat / t.BLOCK_DATA_LEN + 1) * t.BLOCK_DATA_LEN ∧
    (∀ i ≤ iBufLen.toNat / t.BLOCK_DATA_LEN,
      0 < t.next^[i] ddwPos ∧ t.next^[i] ddwPos < t.ddwAllBlockCount) ∧
    iBufLen < ↑(iBufLen.toNat / t.BLOCK_DATA_LEN * t.BLOCK_DATA_LEN +
      t.copyLen (t.next^[iBufLen.toNat / t.BLOCK_DATA_LEN] ddwPos))

/-! ## The rounds -/

section Rounds

variable {t : LinkTable} {n k p : Nat}

theorem copyLen_full (hbdl : t.BLOCK_DATA_LEN < 2 ^ 16) (h : t.next p ≠ 0) :
    t.copyLen p = t.BLOCK_DATA_LEN := by
  rw [copyLen, if_pos h, Nat.mod_eq_of_lt hbdl]

/-- A sum past the range of `int` is negative. -/
theorem int32_wraps {x : Int} (hlo : 2 ^ 31 ≤ x) (hhi : x < 2 ^ 32) : int32 x = x - 2 ^ 32 := by
  rw [int32, Int.bmod_def]
  split <;> omega

theorem safe_of_error (e : LtError) : ReadTrace.Safe t n ⟨[], [], .error e⟩ :=
  ⟨by simp, by simp, by simp, by simp⟩

/-- A copy in front of a trace that is safe for what the buffer has left. -/
theorem safe_round {j : Nat} {r : ReadTrace} (hp : 0 < p ∧ p < t.ddwAllBlockCount)
    (hfit : j + t.copyLen p ≤ n) (hr : r.Safe t n)
    (htotal : j + t.copyLen p + (r.copies.map BufCopy.wBlockLen).sum ≤ n) :
    (r.round p ⟨j, t.copyLen p⟩).Safe t n ∧
      j + ((r.round p ⟨j, t.copyLen p⟩).copies.map BufCopy.wBlockLen).sum ≤ n := by
  have hsum : ((r.round p ⟨j, t.copyLen p⟩).copies.map BufCopy.wBlockLen).sum =
      t.copyLen p + (r.copies.map BufCopy.wBlockLen).sum := by
    rw [ReadTrace.round, List.map_cons, List.sum_cons]
  refine ⟨⟨?_, ?_, by rw [hsum]; omega, hr.length⟩, by rw [hsum]; omega⟩
  · intro b hb
    rcases List.mem_cons.mp hb with rfl | hb
    · exact hp
    · exact hr.visited b hb
  · intro c hc
    rcases List.mem_cons.mp hc with rfl | hc
    · exact ⟨Int.natCast_nonneg j, by simp only; omega⟩
    · exact hr.inside c hc

/-- Behind the last block the loop ends. -/
theorem traceLoop_zero {m : Nat} (fuel : Nat) (hm : m ≤ n) :
    traceLoop t n (fuel + 1) 0 m = some ⟨[], [], .ok m⟩ ∧
      ReadTrace.Safe t n ⟨[], [], .ok (m : Int)⟩ := by
  refine ⟨by rw [traceLoop, if_pos rfl], by simp, by simp, by simp, fun m' hm' => ?_⟩
  obtain rfl : (m : Int) = m' := Except.ok.inj hm'
  omega

/-- `k` blocks fit and `k + 1` do not. -/
structure Rooms (t : LinkTable) (n k : Nat) : Prop where
  pos : 0 < t.BLOCK_DATA_LEN
  small : t.BLOCK_DATA_LEN ≤ 8184
  int : n < 2 ^ 31
  le : k * t.BLOCK_DATA_LEN ≤ n
  lt : n < (k + 1) * t.BLOCK_DATA_LEN

theorem Rooms.le_of {j : Nat} (h : Rooms t n k) (hj : j * t.BLOCK_DATA_LEN ≤ n) : j ≤ k := by
  by_contra hlt
  have := Nat.mul_le_mul_right t.BLOCK_DATA_LEN (show k + 1 ≤ j by omega)
  have := h.lt
  omega

/-- **The rounds end and are safe**, unless the `k`-th of them wraps.  The induction is on the
    blocks that still fit; `j` of them are copied. -/
theorem traceLoop_safe (h : Rooms t n k) {start : Nat}
    (hno : 2 ^ 31 ≤ (k + 1) * t.BLOCK_DATA_LEN →
      (∀ i ≤ k, 0 < t.next^[i] start ∧ t.next^[i] start < t.ddwAllBlockCount) →
      k * t.BLOCK_DATA_LEN + t.copyLen (t.next^[k] start) ≤ n) :
    ∀ (d j : Nat), j + d = k →
      (∀ i < j, 0 < t.next^[i] start ∧ t.next^[i] start < t.ddwAllBlockCount) →
      ∃ r, traceLoop t n (d + 2) (t.next^[j] start) ↑(j * t.BLOCK_DATA_LEN) = some r ∧
        r.Safe t n ∧ j * t.BLOCK_DATA_LEN + (r.copies.map BufCopy.wBlockLen).sum ≤ n ∧
        r.visited.length ≤ d + 1 := by
  intro d
  induction d with
  | zero =>
    intro j hj hvalid
    obtain rfl : j = k := by omega
    have hle := h.le
    rw [traceLoop]
    by_cases h0 : t.next^[j] start = 0
    · obtain ⟨-, hsafe⟩ := traceLoop_zero (t := t) 0 hle
      exact ⟨_, if_pos h0, hsafe, by simpa using hle, Nat.zero_le _⟩
    rw [if_neg h0]
    by_cases hins : t.next^[j] start ≥ t.ddwAllBlockCount
    · exact ⟨_, if_pos hins, safe_of_error _, by simpa using hle, Nat.zero_le _⟩
    rw [if_neg hins]
    have hall : ∀ i ≤ j, 0 < t.next^[i] start ∧ t.next^[i] start < t.ddwAllBlockCount := by
      intro i hi
      rcases Nat.lt_or_eq_of_le hi with hlt | rfl
      · exact hvalid i hlt
      · exact ⟨Nat.pos_of_ne_zero h0, Nat.lt_of_not_le hins⟩
    have hsucc : (j + 1) * t.BLOCK_DATA_LEN = j * t.BLOCK_DATA_LEN + t.BLOCK_DATA_LEN :=
      Nat.succ_mul _ _
    have hlt := h.lt
    rcases Nat.lt_or_ge ((j + 1) * t.BLOCK_DATA_LEN) (2 ^ 31) with hfits | hwraps
    · -- the sum is exact, and the check says that the block does not fit
      have hfull : int32 (↑(j * t.BLOCK_DATA_LEN) + ↑t.BLOCK_DATA_LEN) > (n : Int) := by
        rw [int32_of_lt (by omega) (by omega)]
        omega
      exact ⟨_, if_pos hfull, safe_of_error _, by simpa using hle, Nat.zero_le _⟩
    · -- the check is passed, so what is copied has to be short, and the block is the last
      have hsmall := h.small
      have hint := h.int
      have hpass : ¬ int32 (↑(j * t.BLOCK_DATA_LEN) + ↑t.BLOCK_DATA_LEN) > (n : Int) := by
        rw [int32_wraps (by omega) (by omega)]
        omega
      have hroom := hno hwraps hall
      have hlast : t.next (t.next^[j] start) = 0 := by
        by_contra hne
        rw [copyLen_full (by omega) hne] at hroom
        omega
      have hcast : int32 (↑(j * t.BLOCK_DATA_LEN) + ↑(t.copyLen (t.next^[j] start))) =
          ↑(j * t.BLOCK_DATA_LEN + t.copyLen (t.next^[j] start)) := by
        rw [int32_of_lt (by omega) (by omega)]
        omega
      obtain ⟨hend, hsafe⟩ := traceLoop_zero (t := t) 0 hroom
      obtain ⟨hround, htotal⟩ :=
        safe_round (hall j (Nat.le_refl j)) hroom hsafe (by simpa using hroom)
      rw [if_neg hpass, hlast, hcast, hend]
      exact ⟨_, rfl, hround, htotal, Nat.le_refl 1⟩
  | succ d ih =>
    intro j hj hvalid
    have hle : (j + 1) * t.BLOCK_DATA_LEN ≤ n :=
      Nat.le_trans (Nat.mul_le_mul_right _ (show j + 1 ≤ k by omega)) h.le
    have hsucc : (j + 1) * t.BLOCK_DATA_LEN = j * t.BLOCK_DATA_LEN + t.BLOCK_DATA_LEN :=
      Nat.succ_mul _ _
    have hhere : j * t.BLOCK_DATA_LEN ≤ n := by omega
    have hfit : j * t.BLOCK_DATA_LEN + t.copyLen (t.next^[j] start) ≤ n :=
      Nat.le_trans (Nat.add_le_add_left (copyLen_le t _) _) (hsucc ▸ hle)
    have hint := h.int
    have hsmall := h.small
    rw [traceLoop]
    by_cases h0 : t.next^[j] start = 0
    · obtain ⟨-, hsafe⟩ := traceLoop_zero (t := t) 0 hhere
      exact ⟨_, if_pos h0, hsafe, by simpa using hhere, Nat.zero_le _⟩
    rw [if_neg h0]
    by_cases hins : t.next^[j] start ≥ t.ddwAllBlockCount
    · exact ⟨_, if_pos hins, safe_of_error _, by simpa using hhere, Nat.zero_le _⟩
    have hcur : 0 < t.next^[j] start ∧ t.next^[j] start < t.ddwAllBlockCount :=
      ⟨Nat.pos_of_ne_zero h0, Nat.lt_of_not_le hins⟩
    have hpass : ¬ int32 (↑(j * t.BLOCK_DATA_LEN) + ↑t.BLOCK_DATA_LEN) > (n : Int) := by
      rw [int32_of_lt (by omega) (by omega)]
      omega
    have hcast : int32 (↑(j * t.BLOCK_DATA_LEN) + ↑(t.copyLen (t.next^[j] start))) =
        ↑(j * t.BLOCK_DATA_LEN + t.copyLen (t.next^[j] start)) := by
      rw [int32_of_lt (by omega) (by omega)]
      omega
    rw [if_neg hins, if_neg hpass, hcast]
    by_cases hnext : t.next (t.next^[j] start) = 0
    · obtain ⟨hend, hsafe⟩ := traceLoop_zero (t := t) (d + 1) hfit
      obtain ⟨hround, htotal⟩ := safe_round hcur hfit hsafe (by simpa using hfit)
      rw [hnext, hend]
      exact ⟨_, rfl, hround, htotal, Nat.le_add_left 1 (d + 1)⟩
    · have hsum : j * t.BLOCK_DATA_LEN + t.copyLen (t.next^[j] start) =
          (j + 1) * t.BLOCK_DATA_LEN := by rw [copyLen_full (by omega) hnext, hsucc]
      obtain ⟨r, hr, hsafe, htotal, hcount⟩ := ih (j + 1) (by omega) fun i hi => by
        rcases Nat.lt_or_eq_of_le (Nat.le_of_lt_succ hi) with hlt | rfl
        · exact hvalid i hlt
        · exact hcur
      rw [Function.iterate_succ_apply', ← hsum] at hr
      rw [← hsum] at htotal
      obtain ⟨hround, htotal'⟩ := safe_round hcur hfit hsafe htotal
      rw [hr]
      exact ⟨_, rfl, hround, htotal', Nat.succ_le_succ hcount⟩

/-- **The round that wraps** copies past the end. -/
theorem traceLoop_outside (h : Rooms t n k) {start : Nat}
    (hwraps : 2 ^ 31 ≤ (k + 1) * t.BLOCK_DATA_LEN)
    (hvalid : ∀ i ≤ k, 0 < t.next^[i] start ∧ t.next^[i] start < t.ddwAllBlockCount)
    (hover : n < k * t.BLOCK_DATA_LEN + t.copyLen (t.next^[k] start)) :
    ∀ (d j fuel : Nat) (r : ReadTrace), j + d = k →
      traceLoop t n fuel (t.next^[j] start) ↑(j * t.BLOCK_DATA_LEN) = some r →
      ∃ c ∈ r.copies, (n : Int) < c.iDataLen + c.wBlockLen := by
  intro d
  have hint := h.int
  have hsmall := h.small
  induction d with
  | zero =>
    intro j fuel r hj hr
    obtain rfl : j = k := by omega
    obtain ⟨h0, hin⟩ := hvalid j (Nat.le_refl j)
    have hsucc : (j + 1) * t.BLOCK_DATA_LEN = j * t.BLOCK_DATA_LEN + t.BLOCK_DATA_LEN :=
      Nat.succ_mul _ _
    have hle := h.le
    have hpass : ¬ int32 (↑(j * t.BLOCK_DATA_LEN) + ↑t.BLOCK_DATA_LEN) > (n : Int) := by
      rw [int32_wraps (by omega) (by omega)]
      omega
    cases fuel with
    | zero => cases hr
    | succ fuel =>
      rw [traceLoop, if_neg (by omega), if_neg (by omega), if_neg hpass] at hr
      obtain ⟨r', -, rfl⟩ := Option.map_eq_some_iff.mp hr
      exact ⟨_, List.mem_cons_self, by simp only; omega⟩
  | succ d ih =>
    intro j fuel r hj hr
    obtain ⟨h0, hin⟩ := hvalid j (by omega)
    have hle : (j + 1) * t.BLOCK_DATA_LEN ≤ n :=
      Nat.le_trans (Nat.mul_le_mul_right _ (show j + 1 ≤ k by omega)) h.le
    have hsucc : (j + 1) * t.BLOCK_DATA_LEN = j * t.BLOCK_DATA_LEN + t.BLOCK_DATA_LEN :=
      Nat.succ_mul _ _
    have hpass : ¬ int32 (↑(j * t.BLOCK_DATA_LEN) + ↑t.BLOCK_DATA_LEN) > (n : Int) := by
      rw [int32_of_lt (by omega) (by omega)]
      omega
    have hnext := (hvalid (j + 1) (by omega)).1
    rw [Function.iterate_succ_apply'] at hnext
    have hfull := copyLen_full (by omega) (Nat.ne_of_gt hnext)
    have hcast : int32 (↑(j * t.BLOCK_DATA_LEN) + ↑(t.copyLen (t.next^[j] start))) =
        ↑((j + 1) * t.BLOCK_DATA_LEN) := by
      rw [hfull, int32_of_lt (by omega) (by omega)]
      omega
    cases fuel with
    | zero => cases hr
    | succ fuel =>
      rw [traceLoop, if_neg (by omega), if_neg (by omega), if_neg hpass, hcast,
        ← Function.iterate_succ_apply' t.next j start] at hr
      obtain ⟨r', hr', rfl⟩ := Option.map_eq_some_iff.mp hr
      obtain ⟨c, hc, hout⟩ := ih (j + 1) fuel r' (by omega) hr'
      exact ⟨c, List.mem_cons_of_mem _ hc, hout⟩

end Rounds

/-! ## The call -/

section Call

variable {t : LinkTable} {n ddwPos : Nat}

theorem rooms (hs : 32 ≤ t.ddwBlockSize ∧ t.ddwBlockSize ≤ 8192) (hint : n < 2 ^ 31) :
    Rooms t n (n / t.BLOCK_DATA_LEN) := by
  have hbdl : t.BLOCK_DATA_LEN = t.ddwBlockSize - 8 := rfl
  exact ⟨by omega, by omega, hint, Nat.div_mul_le_self _ _,
    by rw [Nat.mul_comm]; exact Nat.lt_mul_div_succ n (by omega)⟩

theorem traceData_safe (hs : 32 ≤ t.ddwBlockSize ∧ t.ddwBlockSize ≤ 8192) (hint : n < 2 ^ 31)
    (hlarge : t.BLOCK_DATA_LEN ≤ n) (hno : ¬ t.SumWraps ddwPos n) :
    ∃ fuel r, t.traceData fuel ddwPos n = some r ∧ r.Safe t n ∧ r.visited.length ≤ n := by
  have hrooms := rooms hs hint
  have hbdl : t.BLOCK_DATA_LEN = t.ddwBlockSize - 8 := rfl
  obtain ⟨r, hr, hsafe, -, hcount⟩ := @traceLoop_safe _ _ _ hrooms ddwPos
    (fun hwraps hvalid => by
      by_contra hover
      refine hno ⟨by omega, ?_, ?_, ?_⟩
      · rwa [Int.toNat_natCast]
      · rwa [Int.toNat_natCast]
      · rw [Int.toNat_natCast]
        omega)
    (n / t.BLOCK_DATA_LEN) 0 (Nat.zero_add _) (fun i hi => absurd hi (Nat.not_lt_zero i))
  refine ⟨n / t.BLOCK_DATA_LEN + 2, r, ?_, hsafe, ?_⟩
  · rw [traceData, if_neg (by omega)]
    simpa using hr
  · have : n / t.BLOCK_DATA_LEN < n := Nat.div_lt_self (by omega) (by omega)
    omega

/-- The call that wraps leaves the buffer. -/
theorem traceData_outside (hs : 32 ≤ t.ddwBlockSize ∧ t.ddwBlockSize ≤ 8192) (hint : n < 2 ^ 31)
    (hw : t.SumWraps ddwPos n) : ¬ t.ReadSafe ddwPos n := by
  rintro ⟨fuel, r, hr, hsafe⟩
  obtain ⟨hlarge, hwraps, hvalid, hover⟩ := hw
  rw [traceData, if_neg (by omega)] at hr
  rw [Int.toNat_natCast] at hwraps hvalid hover
  obtain ⟨c, hc, hout⟩ := traceLoop_outside (rooms hs hint) hwraps hvalid (by omega)
    (n / t.BLOCK_DATA_LEN) 0 fuel r (Nat.zero_add _) (by simpa using hr)
  have := (hsafe.inside c hc).2
  omega

/-- The trace and `getLoop` return the same length or the same failure. -/
theorem getLoop_trace (hbytes : ∀ b, (t.blocks b).bufData.length = t.BLOCK_DATA_LEN)
    (hint : n < 2 ^ 31) {fuel : Nat} : ∀ {p gas : Nat} {out : List UInt8} {r : ReadTrace},
    traceLoop t n fuel p out.length = some r → r.Safe t n → r.visited.length ≤ gas →
    (getLoop t n gas p out).map (fun d => (d.length : Int)) = r.result := by
  induction fuel with
  | zero =>
    intro p gas out r hr
    cases hr
  | succ fuel ih =>
    intro p gas out r hr hsafe hgas
    rw [traceLoop] at hr
    by_cases h0 : p = 0
    · rw [if_pos h0] at hr
      cases hr
      cases gas <;> rw [getLoop, if_pos h0] <;> rfl
    rw [if_neg h0] at hr
    by_cases hins : p ≥ t.ddwAllBlockCount
    · rw [if_pos hins] at hr
      cases hr
      cases gas <;> rw [getLoop, if_neg h0, if_pos hins] <;> rfl
    rw [if_neg hins] at hr
    by_cases hfull : int32 (out.length + t.BLOCK_DATA_LEN) > (n : Int)
    · rw [if_pos hfull] at hr
      cases hr
      cases gas
      · rw [getLoop, if_neg h0, if_neg hins]
        rfl
      · rw [getLoop, if_neg h0, if_neg hins, if_pos hfull]
        rfl
    rw [if_neg hfull] at hr
    obtain ⟨r', hr', rfl⟩ := Option.map_eq_some_iff.mp hr
    have hin := (hsafe.inside _ List.mem_cons_self).2
    simp only at hin
    rw [ReadTrace.round, List.length_cons] at hgas
    obtain ⟨gas, rfl⟩ : ∃ g, gas = g + 1 := ⟨gas - 1, by omega⟩
    have hlen : (out ++ (t.blocks p).bufData.take (t.copyLen p)).length =
        out.length + t.copyLen p := by
      rw [List.length_append, List.length_take, hbytes, Nat.min_eq_left (copyLen_le t p)]
    rw [int32_of_lt (by omega) (by omega), ← Int.natCast_add, ← hlen] at hr'
    rw [getLoop, if_neg h0, if_neg hins, if_neg hfull, if_neg (by omega)]
    have htotal := hsafe.total
    rw [ReadTrace.round, List.map_cons, List.sum_cons] at htotal
    have hrest : r'.Safe t n :=
      ⟨fun b hb => hsafe.visited b (List.mem_cons_of_mem _ hb),
        fun c hc => hsafe.inside c (List.mem_cons_of_mem _ hc),
        Nat.le_trans (Nat.le_add_left _ _) htotal, hsafe.length⟩
    have hrec := ih hr' hrest (show r'.visited.length ≤ gas by omega)
    exact hrec

/-- Where it is safe, the trace is that of `getData`. -/
theorem getData_trace (hbytes : ∀ b, (t.blocks b).bufData.length = t.BLOCK_DATA_LEN)
    (hs : 32 ≤ t.ddwBlockSize ∧ t.ddwBlockSize ≤ 8192) (hint : n < 2 ^ 31)
    (hno : ¬ t.SumWraps ddwPos n) : ∃ fuel r, t.traceData fuel ddwPos n = some r ∧
      (t.getData ddwPos n).map (fun d => (d.length : Int)) = r.result := by
  by_cases hsmall : n < t.BLOCK_DATA_LEN
  · refine ⟨0, _, if_pos (by omega), ?_⟩
    rw [getData, if_pos hsmall]
    rfl
  · obtain ⟨fuel, r, hr, hsafe, hcount⟩ := traceData_safe hs hint (by omega) hno
    refine ⟨fuel, r, hr, ?_⟩
    rw [traceData, if_neg (by omega)] at hr
    rw [getData, if_neg hsmall]
    exact getLoop_trace hbytes hint (by simpa using hr) hsafe hcount

end Call

/-- **Reading is safe on any contents** exactly when the check of the buffer does not wrap. -/
theorem readSafe_iff {t : LinkTable} (hs : 32 ≤ t.ddwBlockSize ∧ t.ddwBlockSize ≤ 8192)
    (ddwPos : Nat) {iBufLen : Int} (hint : iBufLen < 2 ^ 31) :
    t.ReadSafe ddwPos iBufLen ↔ ¬ t.SumWraps ddwPos iBufLen := by
  rcases lt_or_ge iBufLen t.BLOCK_DATA_LEN with hsmall | hlarge
  · refine iff_of_true ⟨0, _, if_pos hsmall, ?_⟩ fun hw => by have := hw.1; omega
    exact ⟨by simp, by simp, by simp, by simp⟩
  · obtain ⟨n, rfl⟩ : ∃ n : Nat, iBufLen = n := ⟨iBufLen.toNat, by omega⟩
    refine ⟨fun h hw => traceData_outside hs (by omega) hw h, fun hno => ?_⟩
    obtain ⟨fuel, r, hr, hsafe, -⟩ := traceData_safe hs (by omega) (by omega) hno
    exact ⟨fuel, r, hr, hsafe⟩

/-- Two positions and one block that leads to itself. -/
def selfLink : LinkTable where
  ddwAllBlockCount := 2
  ddwFreeBlockCount := 0
  ddwBlockSize := 32
  ddwLastEmpty := 1
  ddwFirstFreePos := 0
  ddwRecycleIndex := 0
  dwRecyclePoolSize := 100
  addwRecyclePool := fun _ => 0
  blocks := fun b => ⟨b, 0xffff, List.replicate 24 0⟩

/-- A buffer of 100 bytes: four rounds, then `-22`. -/
theorem readSafe_hundred : selfLink.ReadSafe 1 100 ∧
    (selfLink.traceData 9 1 100).map (fun r => r.copies.map BufCopy.iDataLen) =
      some [0, 24, 48, 72] := by
  refine ⟨(readSafe_iff (by decide) 1 (by decide)).mpr ?_, by decide⟩
  intro hw
  exact absurd hw.2.1 (by decide)

/-- **The copy past the end.**  In a buffer of `2 ^ 31 - 1` bytes 89478485 blocks fit; the sum for
    the next one is `2 ^ 31 + 16`, which as an `int` is negative. -/
theorem selfLink_not_readSafe : ¬ selfLink.ReadSafe 1 (2 ^ 31 - 1) := by
  have hfix : ∀ i, selfLink.next^[i] 1 = 1 := Function.iterate_fixed rfl
  refine traceData_outside (t := selfLink) (n := 2 ^ 31 - 1) (by decide) (by decide) ⟨?_, ?_, ?_, ?_⟩
  · decide
  · decide
  · intro i _
    rw [hfix]
    decide
  · rw [hfix]
    decide

end LinkTable

end MysqlProxy
