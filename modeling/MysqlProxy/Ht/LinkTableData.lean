/-
  Reading and writing values in a `LinkTable`.

  `Stores t l d` — the blocks `l`, in this order, hold the pieces of `d`.  `GetData` reads exactly
  that (`getData_stores`), and what it reads depends on nothing but the blocks of the chain
  (`getData_keep`).

  `SetData` fills a path of empty blocks (`fillPath`) and cuts it behind the last block it wrote.
  On every outcome the table stays `Valid` and the chains of all other handles keep their blocks
  (`setData_error`, `setData_ok`); the new chain holds the data unless the allocation overran, and
  in that case it is too short to hold them.
-/
import MysqlProxy.Ht.LinkTableAlloc

namespace MysqlProxy.LinkTable

/-! ## What a chain holds -/

/-- The blocks `l` hold the consecutive pieces of `d`. -/
def Stores (t : LinkTable) : List Nat → List UInt8 → Prop
  | [], d => d = []
  | b :: l, d => d ≠ [] ∧ t.len b = (d.take t.BLOCK_DATA_LEN).length ∧
      d.take t.BLOCK_DATA_LEN <+: (t.blocks b).bufData ∧ Stores t l (d.drop t.BLOCK_DATA_LEN)

/-- A value needs as many blocks as there are pieces. -/
theorem Stores.length_lt {t : LinkTable} : ∀ {l : List Nat} {d : List UInt8}, Stores t l d →
    l.length * t.BLOCK_DATA_LEN < d.length + t.BLOCK_DATA_LEN ∨ l = []
  | [], _, _ => .inr rfl
  | b :: l, d, h => by
    obtain ⟨hd, -, -, hrest⟩ := h
    have hpos := List.length_pos_iff.mpr hd
    refine .inl ?_
    rw [List.length_cons, Nat.succ_mul]
    rcases hrest.length_lt with hlt | rfl
    · rw [List.length_drop] at hlt
      rcases Nat.lt_or_ge t.BLOCK_DATA_LEN d.length with h1 | h1
      · omega
      · have h0 : l.length * t.BLOCK_DATA_LEN < 1 * t.BLOCK_DATA_LEN := by omega
        have hl : l.length = 0 := by
          have := Nat.lt_of_mul_lt_mul_right h0
          omega
        rw [hl]
        omega
    · simp only [List.length_nil]
      omega

/-- Only the lengths and the bytes matter. -/
theorem Stores.congr {t t' : LinkTable} (hsize : t'.BLOCK_DATA_LEN = t.BLOCK_DATA_LEN)
    (hlen : ∀ b, t'.len b = t.len b) (hbuf : ∀ b, (t'.blocks b).bufData = (t.blocks b).bufData) :
    ∀ {l : List Nat} {d : List UInt8}, Stores t l d → Stores t' l d
  | [], _, h => h
  | b :: l, d, h => by
    refine ⟨h.1, ?_, ?_, ?_⟩
    · rw [hlen, hsize]; exact h.2.1
    · rw [hbuf, hsize]; exact h.2.2.1
    · rw [hsize]; exact Stores.congr hsize hlen hbuf h.2.2.2

theorem Stores.congr_on {t t' : LinkTable} (hsize : t'.BLOCK_DATA_LEN = t.BLOCK_DATA_LEN) :
    ∀ {l : List Nat} {d : List UInt8}, Stores t l d → (∀ b ∈ l, t'.blocks b = t.blocks b) →
    Stores t' l d
  | [], _, h, _ => h
  | b :: l, d, h, hb => by
    have hbb := hb b List.mem_cons_self
    refine ⟨h.1, ?_, ?_, ?_⟩
    · rw [len, hbb, hsize]; exact h.2.1
    · rw [hbb, hsize]; exact h.2.2.1
    · rw [hsize]
      exact h.2.2.2.congr_on hsize fun x hx => hb x (List.mem_cons_of_mem b hx)

theorem Stores.length_le {t : LinkTable} : ∀ {l : List Nat} {d : List UInt8}, Stores t l d →
    d.length ≤ l.length * t.BLOCK_DATA_LEN
  | [], d, h => by
    have hd : d = [] := h
    simp [hd]
  | b :: l, d, h => by
    have hrest := h.2.2.2.length_le
    rw [List.length_drop] at hrest
    rw [List.length_cons, Nat.succ_mul]
    omega

/-- One piece is what `GetData` copies out of its block. -/
theorem take_copyLen {t : LinkTable} {b : Nat} {d : List UInt8}
    (hbdl : t.BLOCK_DATA_LEN < 2 ^ 16) (hlen : t.len b = (d.take t.BLOCK_DATA_LEN).length)
    (hpiece : d.take t.BLOCK_DATA_LEN <+: (t.blocks b).bufData)
    (hlast : t.next b ≠ 0 → t.BLOCK_DATA_LEN < d.length) :
    (t.blocks b).bufData.take (t.copyLen b) = d.take t.BLOCK_DATA_LEN := by
  have hcopy : t.copyLen b = (d.take t.BLOCK_DATA_LEN).length := by
    have htake := List.length_take (i := t.BLOCK_DATA_LEN) (l := d)
    unfold copyLen
    split
    · next h =>
      have := hlast h
      rw [Nat.mod_eq_of_lt hbdl]
      omega
    · split
      · rw [Nat.mod_eq_of_lt hbdl]; omega
      · exact hlen
  rw [hcopy]
  exact List.prefix_iff_eq_take.mp hpiece |>.symm

/-- The copy of one block never exceeds its data area. -/
theorem copyLen_le (t : LinkTable) (b : Nat) : t.copyLen b ≤ t.BLOCK_DATA_LEN := by
  have := Nat.mod_le t.BLOCK_DATA_LEN (2 ^ 16)
  unfold copyLen
  split
  · omega
  · split <;> omega

theorem getLoop_stores {t : LinkTable} {n : Nat} (hbdl : t.BLOCK_DATA_LEN < 2 ^ 16) :
    ∀ {l : List Nat} {fuel p : Nat} {d : List UInt8} (out : List UInt8), Chain t.next p l →
    (∀ b ∈ l, b < t.ddwAllBlockCount) → Stores t l d →
    out.length + l.length * t.BLOCK_DATA_LEN ≤ n →
    out.length + l.length * t.BLOCK_DATA_LEN < 2 ^ 31 → l.length ≤ fuel →
    getLoop t n fuel p out = .ok (out ++ d) := by
  intro l
  induction l with
  | nil =>
    intro fuel p d out hp _ hd _ _ _
    rw [chain_nil] at hp
    have hd : d = [] := hd
    subst hp hd
    cases fuel <;> simp [getLoop]
  | cons b l ih =>
    intro fuel p d out hp hlt hd hn h31 hfuel
    obtain ⟨rfl, hp0, hrest⟩ := hp
    obtain ⟨-, hlen, hpiece, hd'⟩ := hd
    cases fuel with
    | zero => simp at hfuel
    | succ fuel =>
      rw [List.length_cons, Nat.succ_mul] at hn h31
      have hcopy := copyLen_le t p
      have hlast : t.next p ≠ 0 → t.BLOCK_DATA_LEN < d.length := by
        intro hne
        cases l with
        | nil => exact absurd hrest hne
        | cons c l =>
          have := List.length_pos_iff.mpr hd'.1
          rw [List.length_drop] at this
          omega
      have hint : int32 ((out.length : Int) + t.BLOCK_DATA_LEN) = out.length + t.BLOCK_DATA_LEN :=
        int32_of_lt (by omega) (by omega)
      have hplt := hlt p List.mem_cons_self
      rw [getLoop, if_neg hp0, if_neg (by omega), hint, if_neg (by omega), if_neg (by omega),
        take_copyLen hbdl hlen hpiece hlast]
      have htake := List.length_take (i := t.BLOCK_DATA_LEN) (l := d)
      rw [ih _ hrest (fun b hb => hlt b (List.mem_cons_of_mem p hb)) hd' ?_ ?_ (by simpa using hfuel),
        List.append_assoc, List.take_append_drop] <;>
      · rw [List.length_append]
        omega

/-- When the buffer is too small the loop stops with `-22`, whatever the blocks hold. -/
theorem getLoop_short {t : LinkTable} {n : Nat} (hbdl : t.BLOCK_DATA_LEN < 2 ^ 16) :
    ∀ {l : List Nat} {fuel p : Nat} {d out : List UInt8}, Chain t.next p l →
    (∀ b ∈ l, b < t.ddwAllBlockCount) → Stores t l d → out.length ≤ n →
    n < out.length + l.length * t.BLOCK_DATA_LEN →
    out.length + l.length * t.BLOCK_DATA_LEN < 2 ^ 31 →
    getLoop t n fuel p out = .error .notEnoughSpaceForData := by
  intro l
  induction l with
  | nil =>
    intro fuel p d out _ _ _ h1 h2
    simp only [List.length_nil] at h2
    omega
  | cons b l ih =>
    intro fuel p d out hp hlt hd hout hn h31
    obtain ⟨rfl, hp0, hrest⟩ := hp
    obtain ⟨-, hlen, hpiece, hd'⟩ := hd
    have hplt := hlt p List.mem_cons_self
    cases fuel with
    | zero => rw [getLoop, if_neg hp0, if_neg (by omega)]
    | succ fuel =>
      rw [List.length_cons, Nat.succ_mul] at hn h31
      have hcopy := copyLen_le t p
      have hint : int32 ((out.length : Int) + t.BLOCK_DATA_LEN) = out.length + t.BLOCK_DATA_LEN :=
        int32_of_lt (by omega) (by omega)
      rw [getLoop, if_neg hp0, if_neg (by omega), hint]
      by_cases hfull : (out.length : Int) + t.BLOCK_DATA_LEN > n
      · rw [if_pos hfull]
      · cases l with
        | nil => simp only [List.length_nil] at hn; omega
        | cons c l =>
          have hlast : t.BLOCK_DATA_LEN < d.length := by
            have := List.length_pos_iff.mpr hd'.1
            rw [List.length_drop] at this
            omega
          rw [if_neg hfull, if_neg (by omega), take_copyLen hbdl hlen hpiece (fun _ => hlast)]
          have htake := List.length_take (i := t.BLOCK_DATA_LEN) (l := d)
          refine ih hrest (fun b hb => hlt b (List.mem_cons_of_mem p hb)) hd' ?_ ?_ ?_ <;>
            rw [List.length_append] <;> omega

/-- **`GetData` reads the value of a chain**, if the buffer has room for all of its blocks. -/
theorem getData_stores {t : LinkTable} {p n : Nat} {l : List Nat} {d : List UInt8}
    (hbdl : t.BLOCK_DATA_LEN ≤ 8184) (hpos : 0 < t.BLOCK_DATA_LEN) (hp : Chain t.next p l)
    (hlt : ∀ b ∈ l, b < t.ddwAllBlockCount) (hlen : l.length ≤ MAX_BLOCK_COUNT)
    (hd : Stores t l d) :
    t.getData p n =
      if n < t.BLOCK_DATA_LEN then .error .badArgument
      else if n < l.length * t.BLOCK_DATA_LEN then .error .notEnoughSpaceForData
      else .ok d := by
  have hmax : l.length * t.BLOCK_DATA_LEN < 2 ^ 31 :=
    Nat.lt_of_le_of_lt (Nat.mul_le_mul hlen hbdl) (by unfold MAX_BLOCK_COUNT; omega)
  unfold getData
  by_cases h1 : n < t.BLOCK_DATA_LEN
  · rw [if_pos h1, if_pos h1]
  · rw [if_neg h1, if_neg h1]
    by_cases h2 : n < l.length * t.BLOCK_DATA_LEN
    · rw [if_pos h2]
      exact getLoop_short (by omega) hp hlt hd (Nat.zero_le _)
        (by simpa using h2) (by simp only [List.length_nil]; omega)
    · rw [if_neg h2]
      have hfuel : l.length ≤ n :=
        Nat.le_trans (Nat.le_mul_of_pos_right _ hpos) (Nat.le_of_not_lt h2)
      have hread := getLoop_stores (n := n) (by omega) [] hp hlt hd
        (by simpa using h2) (by simp only [List.length_nil]; omega) hfuel
      simpa using hread

/-! ## What `GetData` depends on -/

theorem copyLen_congr {t t' : LinkTable} {b : Nat} (hsize : t'.ddwBlockSize = t.ddwBlockSize)
    (hb : t'.blocks b = t.blocks b) : t'.copyLen b = t.copyLen b := by
  unfold copyLen next len BLOCK_DATA_LEN
  rw [hsize, hb]

theorem getLoop_congr {t t' : LinkTable} {n : Nat}
    (hall : t'.ddwAllBlockCount = t.ddwAllBlockCount) (hsize : t'.ddwBlockSize = t.ddwBlockSize) :
    ∀ {l : List Nat} {fuel p : Nat} {out : List UInt8}, Chain t.next p l →
    (∀ b ∈ l, t'.blocks b = t.blocks b) → getLoop t' n fuel p out = getLoop t n fuel p out := by
  have hbdl : t'.BLOCK_DATA_LEN = t.BLOCK_DATA_LEN := by rw [BLOCK_DATA_LEN, hsize]; rfl
  intro l
  induction l with
  | nil =>
    intro fuel p out hp _
    rw [chain_nil] at hp
    subst hp
    cases fuel <;> simp [getLoop]
  | cons b l ih =>
    intro fuel p out hp hb
    obtain ⟨rfl, hp0, hrest⟩ := hp
    have hbp := hb p List.mem_cons_self
    cases fuel with
    | zero => rw [getLoop, getLoop, hall]
    | succ fuel =>
      have hnext : t'.next p = t.next p := by rw [next, next, hbp]
      rw [getLoop, getLoop, hall, hbdl, copyLen_congr hsize hbp, hnext, hbp,
        ih hrest (fun b h => hb b (List.mem_cons_of_mem p h))]

/-- `GetData` reads the blocks of the chain and nothing else. -/
theorem getData_congr {t t' : LinkTable} {p n : Nat} {l : List Nat}
    (hall : t'.ddwAllBlockCount = t.ddwAllBlockCount) (hsize : t'.ddwBlockSize = t.ddwBlockSize)
    (hp : Chain t.next p l) (hb : ∀ b ∈ l, t'.blocks b = t.blocks b) :
    t'.getData p n = t.getData p n := by
  have hbdl : t'.BLOCK_DATA_LEN = t.BLOCK_DATA_LEN := by rw [BLOCK_DATA_LEN, hsize]; rfl
  rw [getData, getData, hbdl, getLoop_congr hall hsize hp hb]

theorem getLoop_length_le {t : LinkTable} {n : Nat} :
    ∀ {l : List Nat} {fuel p : Nat} {out d : List UInt8}, Chain t.next p l →
    getLoop t n fuel p out = .ok d → d.length ≤ out.length + l.length * t.BLOCK_DATA_LEN := by
  intro l
  induction l with
  | nil =>
    intro fuel p out d hp h
    rw [chain_nil] at hp
    subst hp
    obtain rfl : out = d := by cases fuel <;> simpa [getLoop] using h
    omega
  | cons b l ih =>
    intro fuel p out d hp h
    obtain ⟨rfl, hp0, hrest⟩ := hp
    cases fuel with
    | zero =>
      rw [getLoop, if_neg hp0] at h
      split at h <;> simp at h
    | succ fuel =>
      rw [getLoop, if_neg hp0] at h
      split at h
      · simp at h
      split at h
      · simp at h
      split at h
      · simp at h
      have hlen := ih hrest h
      have hcopy := copyLen_le t p
      rw [List.length_append, List.length_take] at hlen
      rw [List.length_cons, Nat.succ_mul]
      omega

/-- What is read off a chain has room in its blocks. -/
theorem getData_length_le {t : LinkTable} {p n : Nat} {l : List Nat} {d : List UInt8}
    (hp : Chain t.next p l) (h : t.getData p n = .ok d) :
    d.length ≤ l.length * t.BLOCK_DATA_LEN := by
  unfold getData at h
  split at h
  · simp at h
  · simpa using getLoop_length_le hp h

/-! ## Filling a path -/

/-- The table after the fill loop of `SetData` has gone along the path `l`. -/
def fillPath : List Nat → List UInt8 → LinkTable → LinkTable
  | [], _, t => t
  | b :: l, d, t =>
    fillPath l (d.drop t.BLOCK_DATA_LEN) (t.fillBlock b (d.take t.BLOCK_DATA_LEN))

section Fill

variable (t : LinkTable) (b : Nat) (piece : List UInt8)

theorem fillBlock_blocks_ne {c : Nat} (h : c ≠ b) :
    (t.fillBlock b piece).blocks c = t.blocks c := setBlock_blocks_ne t b c _ h

@[simp] theorem fillBlock_blocks_self : (t.fillBlock b piece).blocks b =
    { t.blocks b with
      ddwLengthInBlock := piece.length % 2 ^ 16
      bufData := piece ++ (t.blocks b).bufData.drop piece.length } :=
  setBlock_blocks_self t b _

@[simp] theorem fillBlock_next (c : Nat) : (t.fillBlock b piece).next c = t.next c := by
  by_cases h : c = b
  · subst h; simp [next]
  · rw [next, next, fillBlock_blocks_ne t b piece h]

@[simp] theorem fillBlock_BLOCK_DATA_LEN :
    (t.fillBlock b piece).BLOCK_DATA_LEN = t.BLOCK_DATA_LEN := rfl

end Fill

/-- The header fields and links that filling leaves alone. -/
theorem fillPath_head (l : List Nat) (d : List UInt8) (t : LinkTable) :
    SameHead t (fillPath l d t) ∧ (fillPath l d t).addwRecyclePool = t.addwRecyclePool ∧
      (fillPath l d t).next = t.next := by
  induction l generalizing d t with
  | nil => exact ⟨SameHead.refl t, rfl, rfl⟩
  | cons b l ih =>
    obtain ⟨h1, h2, h3⟩ := ih (d.drop t.BLOCK_DATA_LEN) (t.fillBlock b (d.take t.BLOCK_DATA_LEN))
    exact ⟨⟨h1.all, h1.size, h1.last, h1.poolSize⟩, h2,
      h3.trans (funext fun c => fillBlock_next t b _ c)⟩

theorem fillPath_blocks {l : List Nat} {c : Nat} (d : List UInt8) (t : LinkTable) (hc : c ∉ l) :
    (fillPath l d t).blocks c = t.blocks c := by
  induction l generalizing d t with
  | nil => rfl
  | cons b l ih =>
    simp only [List.mem_cons, not_or] at hc
    rw [fillPath, ih _ _ hc.2, fillBlock_blocks_ne t b _ hc.1]

/-- Every block of a path that is not longer than the data is used afterwards. -/
theorem fillPath_len {l : List Nat} : ∀ {d : List UInt8} {t : LinkTable} {c : Nat},
    t.BLOCK_DATA_LEN < 2 ^ 16 → 0 < t.BLOCK_DATA_LEN →
    l.length * t.BLOCK_DATA_LEN < d.length + t.BLOCK_DATA_LEN → c ∈ l →
    (fillPath l d t).len c ≠ 0 := by
  induction l with
  | nil => intro d t c _ _ _ hc; simp at hc
  | cons b l ih =>
    intro d t c h16 hpos hlen hc
    rw [List.length_cons, Nat.succ_mul] at hlen
    rw [fillPath]
    by_cases hl : c ∈ l
    · have hl0 : 1 * t.BLOCK_DATA_LEN ≤ l.length * t.BLOCK_DATA_LEN :=
        Nat.mul_le_mul_right _ (List.length_pos_of_mem hl)
      refine ih h16 hpos ?_ hl
      rw [fillBlock_BLOCK_DATA_LEN, List.length_drop]
      omega
    · obtain rfl : c = b := (List.mem_cons.mp hc).resolve_right hl
      rw [len, fillPath_blocks _ _ hl, fillBlock_blocks_self]
      have htake := List.length_take (i := t.BLOCK_DATA_LEN) (l := d)
      show (d.take t.BLOCK_DATA_LEN).length % 2 ^ 16 ≠ 0
      rw [Nat.mod_eq_of_lt (by omega)]
      omega

/-- Along a path without repetition every piece stays where it was put. -/
theorem fillPath_stores {l : List Nat} : ∀ {d : List UInt8} {t : LinkTable},
    t.BLOCK_DATA_LEN < 2 ^ 16 → 0 < t.BLOCK_DATA_LEN → l.Nodup →
    l.length * t.BLOCK_DATA_LEN < d.length + t.BLOCK_DATA_LEN →
    d.length ≤ l.length * t.BLOCK_DATA_LEN → Stores (fillPath l d t) l d := by
  induction l with
  | nil =>
    intro d t _ _ _ _ hd
    exact List.eq_nil_of_length_eq_zero (by simpa using hd)
  | cons b l ih =>
    intro d t h16 hpos hnd hlen hd
    rw [List.length_cons, Nat.succ_mul] at hlen hd
    obtain ⟨hbl, hnd⟩ := List.nodup_cons.mp hnd
    have htake := List.length_take (i := t.BLOCK_DATA_LEN) (l := d)
    have hd0 : d ≠ [] := by
      rintro rfl
      simp only [List.length_nil] at hlen
      omega
    have hsize : (fillPath (b :: l) d t).BLOCK_DATA_LEN = t.BLOCK_DATA_LEN := by
      unfold BLOCK_DATA_LEN
      rw [(fillPath_head (b :: l) d t).1.size]
    have hblk : (fillPath (b :: l) d t).blocks b =
        (t.fillBlock b (d.take t.BLOCK_DATA_LEN)).blocks b := fillPath_blocks _ _ hbl
    refine ⟨hd0, ?_, ?_, ?_⟩
    · rw [hsize, len, hblk, fillBlock_blocks_self]
      exact Nat.mod_eq_of_lt (by omega)
    · rw [hsize, hblk, fillBlock_blocks_self]
      exact List.prefix_append _ _
    · rw [hsize]
      refine ih h16 hpos hnd ?_ ?_
      · rw [fillBlock_BLOCK_DATA_LEN, List.length_drop]
        rcases Nat.lt_or_ge d.length t.BLOCK_DATA_LEN with h | h
        · have h0 : l.length * t.BLOCK_DATA_LEN < 1 * t.BLOCK_DATA_LEN := by omega
          have hl : l.length = 0 := by
            have := Nat.lt_of_mul_lt_mul_right h0
            omega
          rw [hl]
          omega
        · omega
      · rw [fillBlock_BLOCK_DATA_LEN, List.length_drop]
        omega

/-- Filling one block more. -/
theorem fillPath_concat (l : List Nat) (y : Nat) (d : List UInt8) (t : LinkTable) :
    fillPath (l ++ [y]) d t = (fillPath l d t).fillBlock y
      ((d.drop (l.length * t.BLOCK_DATA_LEN)).take t.BLOCK_DATA_LEN) := by
  induction l generalizing d t with
  | nil => simp [fillPath]
  | cons b l ih =>
    rw [List.cons_append, fillPath, ih, fillPath, fillBlock_BLOCK_DATA_LEN, List.drop_drop,
      List.length_cons, Nat.succ_mul, Nat.add_comm t.BLOCK_DATA_LEN]

/-- The last block of a path holds the last piece, whatever it held before. -/
theorem fillPath_last {l : List Nat} {y : Nat} {d : List UInt8} {t : LinkTable}
    (h16 : t.BLOCK_DATA_LEN < 2 ^ 16)
    (hlen : (l ++ [y]).length * t.BLOCK_DATA_LEN < d.length + t.BLOCK_DATA_LEN)
    (hd : d.length ≤ (l ++ [y]).length * t.BLOCK_DATA_LEN) :
    Stores (fillPath (l ++ [y]) d t) [y] (d.drop (l.length * t.BLOCK_DATA_LEN)) := by
  rw [List.length_append, List.length_singleton, Nat.succ_mul] at hlen hd
  have hdrop := List.length_drop (i := l.length * t.BLOCK_DATA_LEN) (l := d)
  have htake := List.length_take (i := t.BLOCK_DATA_LEN) (l := d.drop (l.length * t.BLOCK_DATA_LEN))
  have hsize : (fillPath (l ++ [y]) d t).BLOCK_DATA_LEN = t.BLOCK_DATA_LEN := by
    rw [BLOCK_DATA_LEN, (fillPath_head (l ++ [y]) d t).1.size]
    rfl
  have hblk := fillPath_concat l y d t
  refine ⟨?_, ?_, ?_, ?_⟩
  · rw [← List.length_pos_iff]
    omega
  · rw [hsize, len, hblk, fillBlock_blocks_self]
    exact Nat.mod_eq_of_lt (by omega)
  · rw [hsize, hblk, fillBlock_blocks_self]
    exact List.prefix_append _ _
  · rw [hsize, Stores, List.drop_drop, List.drop_eq_nil_iff]
    omega

/-- The fill loop goes along the path it finds, to its end or to the end of the data. -/
theorem fillLoop_path {l : List Nat} {q : Nat} : ∀ {t : LinkTable} {d : List UInt8} {p c n : Nat},
    0 < t.BLOCK_DATA_LEN → Path t.next p l q → (∀ b ∈ l, b < t.ddwAllBlockCount) →
    l.length * t.BLOCK_DATA_LEN < d.length + t.BLOCK_DATA_LEN → d.length ≤ n →
    (q = 0 ∨ d.length ≤ l.length * t.BLOCK_DATA_LEN) →
    fillLoop n { ddwCurPos := c, ddwNextPos := p, rest := d, table := t } =
      (.ok (), { ddwCurPos := l.getLastD c
                 ddwNextPos := q
                 rest := d.drop (l.length * t.BLOCK_DATA_LEN)
                 table := fillPath l d t }) := by
  induction l with
  | nil =>
    intro t d p c n _ hp _ _ _ hend
    rw [path_nil] at hp
    subst hp
    have hstop : p = 0 ∨ d = [] := hend.imp id fun h => List.eq_nil_of_length_eq_zero (by simpa using h)
    cases n with
    | zero => simp [fillLoop, fillPath]
    | succ n => simp [fillLoop, fillPath, hstop]
  | cons b l ih =>
    intro t d p c n hpos hp hlt hlen hn hend
    obtain ⟨rfl, hp0, hrest⟩ := hp
    rw [List.length_cons, Nat.succ_mul] at hlen hend
    have hd0 : d ≠ [] := by
      rintro rfl
      simp only [List.length_nil] at hlen
      omega
    have hdpos := List.length_pos_iff.mpr hd0
    have hplt := hlt p List.mem_cons_self
    obtain ⟨n, rfl⟩ : ∃ m, n = m + 1 := ⟨n - 1, by omega⟩
    have hdrop := List.length_drop (i := t.BLOCK_DATA_LEN) (l := d)
    rw [fillLoop, if_neg (by simp [hp0, hd0]), if_neg (by show ¬ p ≥ t.ddwAllBlockCount; omega)]
    have hstep := ih (t := t.fillBlock p (d.take t.BLOCK_DATA_LEN))
      (d := d.drop t.BLOCK_DATA_LEN) (p := t.next p) (c := p) (n := n) hpos
      (hrest.frame fun x _ => fillBlock_next t p _ x)
      (fun b hb => hlt b (List.mem_cons_of_mem p hb)) ?_ (by omega) ?_
    · simp only [fillBlock_next, fillBlock_BLOCK_DATA_LEN] at hstep ⊢
      rw [hstep, List.drop_drop, List.length_cons, Nat.succ_mul, Nat.add_comm]
      cases l <;> rfl
    · rw [fillBlock_BLOCK_DATA_LEN, hdrop]
      rcases Nat.lt_or_ge d.length t.BLOCK_DATA_LEN with h | h
      · have h0 : l.length * t.BLOCK_DATA_LEN < 1 * t.BLOCK_DATA_LEN := by omega
        have hl : l.length = 0 := by
          have := Nat.lt_of_mul_lt_mul_right h0
          omega
        rw [hl]
        omega
      · omega
    · rw [fillBlock_BLOCK_DATA_LEN, hdrop]
      rcases hend with h | h
      · exact .inl h
      · exact .inr (by omega)

/-! ## `SetData` as a whole -/

/-- `t'` differs from `t` in blocks that were not used, in the cursors and in the free count. -/
structure KeepsUsed (t t' : LinkTable) : Prop where
  all : t'.ddwAllBlockCount = t.ddwAllBlockCount
  size : t'.ddwBlockSize = t.ddwBlockSize
  poolSize : t'.dwRecyclePoolSize = t.dwRecyclePoolSize
  pool : t'.addwRecyclePool = t.addwRecyclePool
  cursor : t'.CursorOk
  keep : ∀ b, t.Used b → t'.blocks b = t.blocks b

theorem Relinked.keepsUsed {t t' : LinkTable} (h : Relinked t t') (hcur : t'.CursorOk) :
    KeepsUsed t t' :=
  ⟨h.all, h.size, h.poolSize, h.pool, hcur, fun b hb => h.keep b hb.2.2⟩

/-- Filling blocks that were empty keeps the used ones. -/
theorem KeepsUsed.fillPath {t t' : LinkTable} {l : List Nat} (h : KeepsUsed t t')
    (hl : ∀ b ∈ l, t.Empty b) (d : List UInt8) : KeepsUsed t (fillPath l d t') := by
  obtain ⟨hhead, hpool, -⟩ := fillPath_head l d t'
  refine ⟨hhead.all.trans h.all, hhead.size.trans h.size, hhead.poolSize.trans h.poolSize,
    hpool.trans h.pool, ?_, fun b hb => ?_⟩
  · unfold CursorOk
    rw [hhead.last, hhead.all]
    exact h.cursor
  · rw [fillPath_blocks d t' (fun hbl => hb.2.2 (hl b hbl).2.2)]
    exact h.keep b hb

theorem KeepsUsed.setNext {t t' : LinkTable} {b : Nat} (h : KeepsUsed t t') (hb : ¬ t.Used b)
    (n : Nat) : KeepsUsed t (t'.setNext b n) :=
  ⟨h.all, h.size, h.poolSize, h.pool, h.cursor, fun c hc => by
    rw [setNext_blocks_ne t' b c n (fun hcb => hb (hcb ▸ hc))]
    exact h.keep c hc⟩

/-- The number of blocks is the number of pieces. -/
theorem blockCount_bounds {t : LinkTable} {n : Nat} (hpos : 0 < t.BLOCK_DATA_LEN) :
    n ≤ t.blockCount n * t.BLOCK_DATA_LEN ∧
      t.blockCount n * t.BLOCK_DATA_LEN < n + t.BLOCK_DATA_LEN := by
  have hdiv := Nat.div_add_mod (n + t.BLOCK_DATA_LEN - 1) t.BLOCK_DATA_LEN
  have hmod := Nat.mod_lt (n + t.BLOCK_DATA_LEN - 1) hpos
  rw [Nat.mul_comm] at hdiv
  unfold blockCount
  omega

theorem blockCount_pos {t : LinkTable} {n : Nat} (hpos : 0 < t.BLOCK_DATA_LEN) (hn : 0 < n) :
    0 < t.blockCount n := by
  refine Nat.pos_of_ne_zero fun h0 => ?_
  have := (blockCount_bounds (n := n) hpos).1
  rw [h0, Nat.zero_mul] at this
  omega

/-- The table fits its fields: a block holds data and their length fits 16 bits, links fit 48
    bits, the cursor is in range. -/
structure Fits (t : LinkTable) : Prop where
  bdl_pos : 0 < t.BLOCK_DATA_LEN
  bdl_lt : t.BLOCK_DATA_LEN < 2 ^ 16
  all_le : t.ddwAllBlockCount ≤ 2 ^ 48
  cursor : t.CursorOk

/-- The geometry of a table: the block sizes the cache uses, links that fit 48 bits, a cursor in
    range. -/
structure Geometry (t : LinkTable) : Prop where
  size_ge : 32 ≤ t.ddwBlockSize
  size_le : t.ddwBlockSize ≤ 8192
  all_le : t.ddwAllBlockCount ≤ 2 ^ 48
  cursor : t.CursorOk

theorem Geometry.bdl {t : LinkTable} (h : Geometry t) :
    24 ≤ t.BLOCK_DATA_LEN ∧ t.BLOCK_DATA_LEN ≤ 8184 := by
  have h1 := h.size_ge
  have h2 := h.size_le
  unfold BLOCK_DATA_LEN
  omega

theorem Geometry.fits {t : LinkTable} (h : Geometry t) : Fits t := by
  obtain ⟨hb1, hb2⟩ := h.bdl
  exact ⟨by omega, by omega, h.all_le, h.cursor⟩

/-- The path `l` filled with `data` and cut behind its last block; the sentinel keeps the link
    `q`. -/
def storePath (t : LinkTable) (l : List Nat) (q : Nat) (data : List UInt8) : LinkTable :=
  ((fillPath l data t).setNext (l.getLastD 0) 0).setNext 0 q

/-- **The endings of `SetData`**: too many blocks, none to be had, a table without usable blocks, a
    path that is too short, and a path that is long enough, after which the old chain is
    recycled. -/
inductive SetOutcome (t : LinkTable) (ddwPos : Nat) (data : List UInt8) :
    Except LtError Nat × LinkTable → Prop where
  | tooLarge : MAX_BLOCK_COUNT < t.blockCount data.length →
      SetOutcome t ddwPos data (.error .dataTooLarge, t)
  | noSpace (t1 : LinkTable) : t.blockCount data.length ≤ MAX_BLOCK_COUNT →
      t.getEmptyBlock (t.blockCount data.length) = (.error .notEnoughSpace, t1) →
      Allocated t (t.blockCount data.length) (.error .notEnoughSpace, t1) →
      SetOutcome t ddwPos data (.error .notEnoughSpace, t1)
  | noBlocks (t1 : LinkTable) : t.ddwAllBlockCount ≤ 1 → Relinked t t1 → t1.CursorOk →
      ¬ t.Overruns (t.blockCount data.length) → SetOutcome t ddwPos data (.error .nextPositionBad, t1)
  | shortList (t1 : LinkTable) (p q : Nat) (l : List Nat) : Relinked t t1 → t1.CursorOk →
      HandedOut t t1 (t.blockCount data.length) p l q → l.length < t.blockCount data.length →
      SetOutcome t ddwPos data
        (.error (.blocksNotEnough (t.blockCount data.length) data.length t.ddwBlockSize),
          fillPath l data t1)
  | stored (t1 : LinkTable) (p q : Nat) (l : List Nat) : Relinked t t1 → t1.CursorOk →
      HandedOut t t1 (t.blockCount data.length) p l q → l.length = t.blockCount data.length →
      t.blockCount data.length ≤ MAX_BLOCK_COUNT →
      SetOutcome t ddwPos data (.ok p, if ddwPos ≠ 0 then (t1.storePath l q data).recycleBlock ddwPos
        else t1.storePath l q data)

theorem setData_outcome {t : LinkTable} {data : List UInt8} (ddwPos : Nat) (hf : Fits t)
    (hd : data ≠ []) : SetOutcome t ddwPos data (t.setData ddwPos data) := by
  have hpos := blockCount_pos (t := t) (n := data.length) hf.bdl_pos (List.length_pos_iff.mpr hd)
  have hcnt := blockCount_bounds (t := t) (n := data.length) hf.bdl_pos
  rw [setData]
  by_cases hmax : t.blockCount data.length > MAX_BLOCK_COUNT
  · rw [if_pos hmax]
    exact .tooLarge hmax
  have halloc := getEmptyBlock_allocated hpos hf.all_le hf.cursor
  rw [if_neg hmax]
  rcases hget : t.getEmptyBlock (t.blockCount data.length) with ⟨e | p, t1⟩
  · rw [hget] at halloc
    obtain ⟨rfl, -⟩ := halloc.error e rfl
    exact .noSpace t1 (Nat.le_of_not_lt hmax) hget halloc
  rw [hget] at halloc
  have hrel := halloc.relinked
  have hbdl : t1.BLOCK_DATA_LEN = t.BLOCK_DATA_LEN := by rw [BLOCK_DATA_LEN, hrel.size]; rfl
  rcases halloc.ok p rfl with ⟨rfl, htiny, hno⟩ | ⟨l, q, h⟩
  · -- a table without usable blocks
    have hbad : fillLoop data.length { ddwCurPos := 0, ddwNextPos := 1, rest := data, table := t1 } =
        (.error .nextPositionBad,
          { ddwCurPos := 1, ddwNextPos := 1, rest := data, table := t1 }) := by
      obtain ⟨n, hn⟩ : ∃ n, data.length = n + 1 := ⟨data.length - 1, by
        have := List.length_pos_iff.mpr hd
        omega⟩
      rw [hn, fillLoop, if_neg (by simp [hd]),
        if_pos (by show 1 ≥ t1.ddwAllBlockCount; rw [hrel.all]; exact htiny)]
    simp only [hbad]
    exact .noBlocks t1 htiny hrel halloc.cursor hno
  · have hfill := fillLoop_path (t := t1) (d := data) (c := 0) (n := data.length)
      (hbdl ▸ hf.bdl_pos) h.path (fun b hb => by rw [hrel.all]; exact (h.empty b hb).2.1) ?_
      (Nat.le_refl _) ?_
    · rcases Nat.lt_or_ge l.length (t.blockCount data.length) with hshort | hfull
      · -- the list was cyclic: fewer different blocks than it counted
        have hmul : (l.length + 1) * t.BLOCK_DATA_LEN ≤ t.blockCount data.length * t.BLOCK_DATA_LEN :=
          Nat.mul_le_mul_right _ hshort
        rw [Nat.succ_mul] at hmul
        have hrest : data.drop (l.length * t1.BLOCK_DATA_LEN) ≠ [] := by
          rw [ne_eq, List.drop_eq_nil_iff, hbdl]
          omega
        simp only [hfill, hrest, ne_eq, not_false_eq_true, if_true]
        exact .shortList t1 p q l hrel halloc.cursor h hshort
      · have hlen : l.length = t.blockCount data.length := Nat.le_antisymm h.le hfull
        have hrest : data.drop (l.length * t1.BLOCK_DATA_LEN) = [] := by
          rw [List.drop_eq_nil_iff, hbdl, hlen]
          exact hcnt.1
        simp only [hfill, hrest, ne_eq, not_true_eq_false, if_false]
        exact .stored t1 p q l hrel halloc.cursor h hlen (Nat.le_of_not_lt hmax)
    · have := Nat.mul_le_mul_right t.BLOCK_DATA_LEN h.le
      rw [hbdl]
      omega
    · rcases Nat.lt_or_ge l.length (t.blockCount data.length) with hshort | hfull
      · exact .inl (h.short hshort)
      · right
        rw [hbdl, Nat.le_antisymm h.le hfull]
        exact hcnt.1

/-- The four ways `SetData` fails: too many blocks, none to be had, a table without usable
    blocks, and a free list that comes back to itself. -/
inductive SetFailure (t : LinkTable) (data : List UInt8) : LtError → Prop where
  | tooLarge : MAX_BLOCK_COUNT < t.blockCount data.length → SetFailure t data .dataTooLarge
  | noSpace : t.blockCount data.length ≤ MAX_BLOCK_COUNT →
      (t.getEmptyBlock (t.blockCount data.length)).1 = .error .notEnoughSpace →
      SetFailure t data .notEnoughSpace
  | noBlocks : t.ddwAllBlockCount ≤ 1 → SetFailure t data .nextPositionBad
  | shortList : SetFailure t data
      (.blocksNotEnough (t.blockCount data.length) data.length t.ddwBlockSize)

/-- A call of `SetData` that failed: no used block has changed. -/
structure SetFailed (t : LinkTable) (data : List UInt8) (e : LtError) (t' : LinkTable) : Prop where
  keeps : KeepsUsed t t'
  noOverrun : ¬ t.Overruns (t.blockCount data.length)
  failure : SetFailure t data e

/-- The table of a successful `SetData` before the old chain is given up: a new chain `c` at `p`
    of blocks that were empty.  It holds the data, unless the allocation has overrun; then it has
    too few blocks for them. -/
structure SetDone (t : LinkTable) (data : List UInt8) (p : Nat) (c : List Nat) (t' : LinkTable) :
    Prop where
  keeps : KeepsUsed t t'
  chain : Chain t'.next p c
  ne : c ≠ []
  len_le : c.length ≤ MAX_BLOCK_COUNT
  empty : ∀ b ∈ c, t.Empty b
  used : ∀ b ∈ c, t'.Used b
  stores : ¬ t.Overruns (t.blockCount data.length) → Stores t' c data
  short : t.Overruns (t.blockCount data.length) → c.length < t.blockCount data.length
  /-- What it holds is the end of the data, and never nothing. -/
  piece : ∃ d, d <:+ data ∧ d ≠ [] ∧ Stores t' c d

/-- Filling and cutting a path that is long enough. -/
theorem setDone_of_handedOut {t t1 : LinkTable} {data : List UInt8} {p q : Nat} {l : List Nat}
    (hf : Fits t) (hd : data ≠ []) (hk : KeepsUsed t t1)
    (hmax : t.blockCount data.length ≤ MAX_BLOCK_COUNT)
    (h : HandedOut t t1 (t.blockCount data.length) p l q)
    (hfull : l.length = t.blockCount data.length) :
    ∃ c, SetDone t data p c (t1.storePath l q data) ∧ (l.Nodup → c = l) := by
  have hb1 := hf.bdl_pos
  have hb2 := hf.bdl_lt
  have hbdl : t1.BLOCK_DATA_LEN = t.BLOCK_DATA_LEN := by rw [BLOCK_DATA_LEN, hk.size]; rfl
  obtain ⟨hcnt1, hcnt2⟩ := blockCount_bounds (t := t) (n := data.length) (by omega)
  rw [← hfull] at hcnt1 hcnt2
  obtain ⟨hhead, -, hnext⟩ := fillPath_head l data t1
  obtain ⟨l', y, rfl⟩ : ∃ l' y, l = l' ++ [y] :=
    ⟨l.dropLast, l.getLast h.ne, (List.dropLast_append_getLast h.ne).symm⟩
  have hlast : (l' ++ [y]).getLastD 0 = y := by simp
  rw [storePath, hlast]
  have hy : t.Empty y := h.empty y (List.mem_append_right l' (List.mem_singleton.mpr rfl))
  have h0 : ¬ t.Used 0 := fun hu => absurd hu.1 (Nat.lt_irrefl 0)
  have hkeeps := ((hk.fillPath h.empty data).setNext (b := y) (fun hu => hu.2.2 hy.2.2) 0).setNext
    h0 q
  -- cut behind the last block, then write the sentinel, which is on no chain
  obtain ⟨c, hc, hcne, hsub, hclen, hcnd⟩ := (hnext ▸ h.path).cut
    (g := ((fillPath (l' ++ [y]) data t1).setNext y 0).next)
    (setNext_next_self _ y 0) (fun x hx => setNext_next_ne _ y x 0 hx)
  have hclen' : c.length ≤ t.blockCount data.length := by
    rw [← hfull, List.length_append, List.length_singleton]; exact hclen
  have hlen2 : ∀ b, (((fillPath (l' ++ [y]) data t1).setNext y 0).setNext 0 q).len b =
      (fillPath (l' ++ [y]) data t1).len b := by
    intro b
    rw [setNext_len, setNext_len]
  have hstores : ∀ {l d}, Stores (fillPath (l' ++ [y]) data t1) l d →
      Stores (((fillPath (l' ++ [y]) data t1).setNext y 0).setNext 0 q) l d := by
    intro l d hst
    refine Stores.congr ?_ hlen2 (fun b => ?_) hst
    · rfl
    · rw [setNext_bufData, setNext_bufData]
  have hall : ¬ t.Overruns (t.blockCount data.length) →
      Stores (((fillPath (l' ++ [y]) data t1).setNext y 0).setNext 0 q) c data := by
    intro hno
    have hnd := h.nodup hno
    rw [hcnd hnd]
    exact hstores (fillPath_stores (by omega) (by omega) hnd (by rw [hbdl]; exact hcnt2)
      (by rw [hbdl]; exact hcnt1))
  refine ⟨c, ⟨hkeeps, hc.frame fun b hb => ?_, hcne, by omega, fun b hb => h.empty b (hsub hb),
    fun b hb => ?_, hall, fun ho => ?_, ?_⟩, hcnd⟩
  · exact setNext_next_ne _ 0 b q (hc.ne_zero b hb)
  · have hemp := h.empty b (hsub hb)
    refine ⟨hemp.1, ?_, ?_⟩
    · rw [hkeeps.all]
      exact hemp.2.1
    · rw [hlen2]
      exact fillPath_len (by omega) (by omega) (by rw [hbdl]; exact hcnt2) (hsub hb)
  · refine Nat.lt_of_le_of_ne hclen' fun heq => (h.twice ho).2 ?_
    -- a chain with as many members as the path has no room for a repetition
    have hsubp := List.subperm_of_subset hc.nodup hsub
    have hperm := hsubp.perm_of_length_le (by rw [hfull, heq])
    exact hperm.nodup_iff.mp hc.nodup
  · by_cases ho : t.Overruns (t.blockCount data.length)
    · -- the path ends where it began, so the cut leaves the last block alone
      obtain rfl : y = p := by simpa using h.round ho
      have hone : c = [y] := by
        refine hc.unique ⟨rfl, ?_, setNext_next_self _ y 0⟩
        exact Nat.ne_of_gt hy.1
      have hlast := fillPath_last (t := t1) (d := data) (l := l') (y := y) (by omega)
        (by rw [hbdl]; exact hcnt2) (by rw [hbdl]; exact hcnt1)
      rw [hone]
      exact ⟨_, List.drop_suffix _ _, hlast.1, hstores hlast⟩
    · exact ⟨data, List.suffix_refl data, hd, hall ho⟩

/-- **What `SetData` can do.**  Either it fails and no used block has changed, or a new chain is
    in place and, as the last thing, the old one is recycled. -/
theorem setData_cases {t : LinkTable} {data : List UInt8} (ddwPos : Nat) (hf : Fits t)
    (hd : data ≠ []) :
    (∃ e t', t.setData ddwPos data = (.error e, t') ∧ SetFailed t data e t') ∨
    (∃ p c t', t.setData ddwPos data =
        (.ok p, if ddwPos ≠ 0 then t'.recycleBlock ddwPos else t') ∧ SetDone t data p c t') := by
  have hout := setData_outcome ddwPos hf hd
  generalize t.setData ddwPos data = r at hout ⊢
  cases hout with
  | tooLarge hmax =>
    refine .inl ⟨_, _, rfl, (Relinked.refl t).keepsUsed hf.cursor, fun ho => ?_, .tooLarge hmax⟩
    have := ho.1
    omega
  | noSpace t1 hmax hget halloc =>
    exact .inl ⟨_, t1, rfl, halloc.relinked.keepsUsed halloc.cursor, (halloc.error _ rfl).2.1,
      .noSpace hmax (by rw [hget])⟩
  | noBlocks t1 htiny hrel hcur hno =>
    exact .inl ⟨_, t1, rfl, hrel.keepsUsed hcur, hno, .noBlocks htiny⟩
  | shortList t1 p q l hrel hcur h hshort =>
    refine .inl ⟨_, _, rfl, (hrel.keepsUsed hcur).fillPath h.empty data, fun ho => ?_, .shortList⟩
    have := (h.twice ho).1
    omega
  | stored t1 p q l hrel hcur h hfull hmax =>
    obtain ⟨c, hdone, -⟩ := setDone_of_handedOut hf hd (hrel.keepsUsed hcur) hmax h hfull
    exact .inr ⟨p, c, _, rfl, hdone⟩

/-! ## Sound and valid tables -/

/-- The invariant of a table with the given live handles, for any block size that fits. -/
structure Sound (t : LinkTable) (handles : List Nat) : Prop extends Fits t where
  ring : RingOk t
  isolated : t.Isolated handles

section Sound

variable {t t' : LinkTable} {p : Nat} {handles handles' : List Nat} {data : List UInt8}
  {c : List Nat}

theorem Fits.of_eq (h : Fits t) (hall : t'.ddwAllBlockCount = t.ddwAllBlockCount)
    (hsize : t'.ddwBlockSize = t.ddwBlockSize) (hcur : t'.CursorOk) : Fits t' := by
  have hbdl : t'.BLOCK_DATA_LEN = t.BLOCK_DATA_LEN := by rw [BLOCK_DATA_LEN, hsize]; rfl
  exact ⟨hbdl ▸ h.bdl_pos, hbdl ▸ h.bdl_lt, hall ▸ h.all_le, hcur⟩

theorem SameHead.cursorOk (h : SameHead t t') (hcur : t.CursorOk) : t'.CursorOk := by
  rw [CursorOk, h.last, h.all]
  exact hcur

theorem Sound.subperm (h : Sound t handles) (hs : handles'.Subperm handles) : Sound t handles' :=
  { h with isolated := Owns.subperm h.isolated (hs.append (List.Subperm.refl t.ring)) }

theorem Sound.cons_zero (h : Sound t handles) : Sound t (0 :: handles) :=
  { h with isolated := Owns.cons_zero h.isolated }

theorem KeepsUsed.sound (hs : Sound t handles) (h : KeepsUsed t t') :
    Sound t' handles ∧ KeepsChains t t' (handles ++ t.ring) := by
  have hk : KeepsChains t t' (handles ++ t.ring) :=
    fun b hb => h.keep b (Owns.ok_of_covered hs.isolated hb)
  have hring : t'.ring = t.ring := by rw [LinkTable.ring, h.pool]; rfl
  refine ⟨⟨hs.toFits.of_eq h.all h.size h.cursor, hs.ring.of_eq h.poolSize h.pool, ?_⟩, hk⟩
  show Owns _ _ _ (handles ++ t'.ring)
  rw [hring]
  exact Owns.keep hs.isolated hk h.all

/-- The new chain joins the live ones. -/
theorem SetDone.sound (hs : Sound t handles) (h : SetDone t data p c t') :
    Sound t' (p :: handles) := by
  obtain ⟨hs', hk⟩ := h.keeps.sound hs
  refine { hs' with isolated := Owns.cons hs'.isolated h.chain h.len_le h.used ?_ }
  intro b hb hcov
  have hring : t'.ring = t.ring := by rw [LinkTable.ring, h.keeps.pool]; rfl
  obtain ⟨r, hr, l, hl, hbl⟩ := hcov
  rw [hring] at hr
  -- the same chain was there before, made of used blocks
  obtain ⟨l0, hl0, -, hok⟩ := Owns.chain hs.isolated hr
  have hl0' : Chain t'.next r l0 := hl0.frame fun x hx => by
    rw [next, next, hk x ⟨r, hr, l0, hl0, hx⟩]
  rw [hl.unique hl0'] at hbl
  exact (hok b hbl).2.2 (h.empty b hb).2.2

/-- A handle is given up. -/
theorem Sound.recycleBlock (hs : Sound t (p :: handles)) : Sound (t.recycleBlock p) handles := by
  obtain ⟨hiso, hring, hhead, -⟩ := recycleBlock_isolated hs.ring hs.isolated
  exact ⟨hs.toFits.of_eq hhead.all hhead.size (hhead.cursorOk hs.cursor), hring, hiso⟩

/-- The ring is emptied and gets another size. -/
theorem Sound.resize {n : Nat} (hs : Sound t handles) (h0 : 0 < n)
    (hn : n ≤ LT_MAX_RECYCLE_POOL_SIZE) :
    Sound { t.emptyRecyclePool with dwRecyclePoolSize := n } handles := by
  obtain ⟨hiso, hhead, -, hzero⟩ := emptyRecyclePool_isolated hs.ring hs.isolated
  exact ⟨hs.toFits.of_eq hhead.all hhead.size (hhead.cursorOk hs.cursor),
    ⟨h0, hn, fun i _ => hzero i⟩, hiso⟩

end Sound

/-- The invariant of a table with the given live handles. -/
structure Valid (t : LinkTable) (handles : List Nat) : Prop extends Geometry t where
  ring : RingOk t
  isolated : t.Isolated handles

/-- `p` is the handle of a chain that holds `d`. -/
def Holds (t : LinkTable) (p : Nat) (d : List UInt8) : Prop :=
  ∃ c, Chain t.next p c ∧ c.length ≤ MAX_BLOCK_COUNT ∧ (∀ b ∈ c, t.Used b) ∧ Stores t c d

section Valid

variable {t t' : LinkTable} {p ddwPos : Nat} {handles : List Nat} {data : List UInt8} {c : List Nat}

theorem Valid.perm {handles' : List Nat} (h : Valid t handles) (hp : handles.Perm handles') :
    Valid t handles' :=
  { h with isolated := Owns.perm h.isolated (hp.append_right t.ring) }

theorem Valid.tail (h : Valid t (p :: handles)) : Valid t handles :=
  { h with isolated := Owns.tail h.isolated }

theorem Valid.cons_zero (h : Valid t handles) : Valid t (0 :: handles) :=
  { h with isolated := Owns.cons_zero h.isolated }

/-- The chains of a valid table that keep their blocks are read as before. -/
theorem Valid.getData_keep {n : Nat} (h : Valid t handles) (hp : p ∈ handles)
    (hall : t'.ddwAllBlockCount = t.ddwAllBlockCount) (hsize : t'.ddwBlockSize = t.ddwBlockSize)
    (hk : KeepsChains t t' handles) : t'.getData p n = t.getData p n := by
  obtain ⟨l, hl, -, -⟩ := Owns.chain h.isolated (List.mem_append_left t.ring hp)
  exact getData_congr hall hsize hl fun b hb => hk b ⟨p, hp, l, hl, hb⟩

theorem Holds.keep (h : Holds t p data) (hp : p ∈ handles)
    (hall : t'.ddwAllBlockCount = t.ddwAllBlockCount) (hsize : t'.ddwBlockSize = t.ddwBlockSize)
    (hk : KeepsChains t t' handles) : Holds t' p data := by
  obtain ⟨l, hl, hlen, hused, hst⟩ := h
  have hblk : ∀ b ∈ l, t'.blocks b = t.blocks b := fun b hb => hk b ⟨p, hp, l, hl, hb⟩
  refine ⟨l, hl.frame fun b hb => ?_, hlen, fun b hb => ?_, ?_⟩
  · rw [next, next, hblk b hb]
  · obtain ⟨h0, h1, h2⟩ := hused b hb
    exact ⟨h0, hall ▸ h1, by rw [len, hblk b hb]; exact h2⟩
  · exact hst.congr_on (by rw [BLOCK_DATA_LEN, hsize]; rfl) hblk

theorem Valid.sound (h : Valid t handles) : Sound t handles :=
  ⟨h.toGeometry.fits, h.ring, h.isolated⟩

/-- A sound table with a block size of the cache is valid. -/
theorem Sound.valid {handles₀ : List Nat} (h : Sound t' handles) (hv : Valid t handles₀)
    (hsize : t'.ddwBlockSize = t.ddwBlockSize) : Valid t' handles :=
  ⟨⟨hsize ▸ hv.size_ge, hsize ▸ hv.size_le, h.all_le, h.cursor⟩, h.ring, h.isolated⟩

theorem KeepsUsed.valid (hv : Valid t handles) (h : KeepsUsed t t') :
    Valid t' handles ∧ KeepsChains t t' (handles ++ t.ring) := by
  obtain ⟨hs, hk⟩ := h.sound hv.sound
  exact ⟨hs.valid hv h.size, hk⟩

/-- The new chain joins the live ones. -/
theorem SetDone.valid (hv : Valid t handles) (h : SetDone t data p c t') :
    Valid t' (p :: handles) := (h.sound hv.sound).valid hv h.keeps.size

/-- A successful `SetData` seen from the outside: the handle `ddwPos` is exchanged for `p`, all
    others keep their chains, and `p` reads back the data unless the allocation overran. -/
structure Stored (t : LinkTable) (handles : List Nat) (data : List UInt8) (p : Nat)
    (t' : LinkTable) : Prop where
  valid : Valid t' (p :: handles)
  ne_zero : p ≠ 0
  all : t'.ddwAllBlockCount = t.ddwAllBlockCount
  size : t'.ddwBlockSize = t.ddwBlockSize
  keeps : KeepsChains t t' handles
  holds : ¬ t.Overruns (t.blockCount data.length) → Holds t' p data
  lost : t.Overruns (t.blockCount data.length) → ∀ n, t'.getData p n ≠ .ok data
  piece : ∃ d, d <:+ data ∧ d ≠ [] ∧ Holds t' p d

theorem SetDone.ne_zero (h : SetDone t data p c t') : p ≠ 0 := by
  rintro rfl
  obtain ⟨x, l, rfl⟩ := List.exists_cons_of_ne_nil h.ne
  exact h.chain.2.1 h.chain.1.symm

/-- A chain with too few blocks cannot be read back as the data. -/
theorem SetDone.getData_ne (hg : Geometry t) (h : SetDone t data p c t')
    (ho : t.Overruns (t.blockCount data.length)) {n : Nat} : t'.getData p n ≠ .ok data := by
  intro hread
  obtain ⟨hb1, hb2⟩ := hg.bdl
  have hbdl : t'.BLOCK_DATA_LEN = t.BLOCK_DATA_LEN := by rw [BLOCK_DATA_LEN, h.keeps.size]; rfl
  have hlen := getData_length_le h.chain hread
  have hcnt := blockCount_bounds (t := t) (n := data.length) (by omega)
  have hmul := Nat.mul_le_mul_right t.BLOCK_DATA_LEN (h.short ho)
  rw [hbdl] at hlen
  rw [Nat.succ_mul] at hmul
  omega

theorem SetDone.stored (hv : Valid t (ddwPos :: handles)) (h : SetDone t data p c t') :
    Stored t handles data p (if ddwPos ≠ 0 then t'.recycleBlock ddwPos else t') := by
  have hv' := h.valid hv
  have hk := (h.keeps.valid hv).2
  have hsub : handles ⊆ (ddwPos :: handles) ++ t.ring := fun x hx =>
    List.mem_append_left _ (List.mem_cons_of_mem ddwPos hx)
  have hholds : ¬ t.Overruns (t.blockCount data.length) → Holds t' p data :=
    fun hno => ⟨c, h.chain, h.len_le, h.used, h.stores hno⟩
  obtain ⟨d, hsuf, hne, hst⟩ := h.piece
  have hpiece : Holds t' p d := ⟨c, h.chain, h.len_le, h.used, hst⟩
  by_cases h0 : ddwPos = 0
  · rw [if_neg (by simpa using h0)]
    have hperm : (p :: ddwPos :: handles).Perm (ddwPos :: p :: handles) := List.Perm.swap _ _ _
    exact ⟨(hv'.perm hperm).tail, h.ne_zero, h.keeps.all, h.keeps.size, hk.mono hsub, hholds,
      fun ho n => h.getData_ne hv.toGeometry ho, d, hsuf, hne, hpiece⟩
  · rw [if_pos h0]
    have hperm : (p :: ddwPos :: handles).Perm (ddwPos :: p :: handles) := List.Perm.swap _ _ _
    have hv2 := hv'.perm hperm
    obtain ⟨-, -, hhead, hkeep⟩ := recycleBlock_isolated hv2.ring hv2.isolated
    refine ⟨hv2.sound.recycleBlock.valid hv2 hhead.size, h.ne_zero, hhead.all.trans h.keeps.all,
      hhead.size.trans h.keeps.size, ?_, ?_, ?_, d, hsuf, hne, ?_⟩
    · refine (hk.mono hsub).trans (hkeep.mono fun x hx => ?_)
      exact List.mem_cons_of_mem ddwPos (List.mem_cons_of_mem p hx)
    · intro hno
      exact (hholds hno).keep (List.mem_cons_of_mem ddwPos List.mem_cons_self) hhead.all hhead.size
        hkeep
    · intro ho n
      rw [hv2.getData_keep (List.mem_cons_of_mem ddwPos List.mem_cons_self) hhead.all hhead.size
        hkeep]
      exact h.getData_ne hv.toGeometry ho
    · exact hpiece.keep (List.mem_cons_of_mem ddwPos List.mem_cons_self) hhead.all hhead.size hkeep

/-- A handle is given up. -/
theorem Valid.recycleBlock (hv : Valid t (p :: handles)) :
    Valid (t.recycleBlock p) handles ∧ KeepsChains t (t.recycleBlock p) handles ∧
      SameHead t (t.recycleBlock p) := by
  obtain ⟨-, -, hhead, hkeep⟩ := recycleBlock_isolated hv.ring hv.isolated
  exact ⟨hv.sound.recycleBlock.valid hv hhead.size, hkeep.mono (List.subset_cons_self p handles),
    hhead⟩

/-- **`SetData` on a valid table.** -/
theorem setData_valid (hv : Valid t (ddwPos :: handles)) (hd : data ≠ []) :
    (∃ e t', t.setData ddwPos data = (.error e, t') ∧ KeepsUsed t t' ∧
      ¬ t.Overruns (t.blockCount data.length)) ∨
    (∃ p t', t.setData ddwPos data = (.ok p, t') ∧ Stored t handles data p t') := by
  rcases setData_cases ddwPos hv.toGeometry.fits hd with ⟨e, t', heq, hf⟩ | ⟨p, c, t', heq, hd⟩
  · exact .inl ⟨e, t', heq, hf.keeps, hf.noOverrun⟩
  · exact .inr ⟨p, _, heq, hd.stored hv⟩

end Valid

/-- A chain has exactly the blocks its value needs. -/
theorem Stores.length_eq {t : LinkTable} (hpos : 0 < t.BLOCK_DATA_LEN) :
    ∀ {l : List Nat} {d : List UInt8}, Stores t l d → l.length = t.blockCount d.length := by
  intro l d h
  have hcnt := blockCount_bounds (t := t) (n := d.length) hpos
  have hle := h.length_le
  rcases h.length_lt with hlt | rfl
  · have h1 : l.length * t.BLOCK_DATA_LEN < (t.blockCount d.length + 1) * t.BLOCK_DATA_LEN := by
      rw [Nat.succ_mul]; omega
    have h2 : t.blockCount d.length * t.BLOCK_DATA_LEN < (l.length + 1) * t.BLOCK_DATA_LEN := by
      rw [Nat.succ_mul]; omega
    have := Nat.lt_of_mul_lt_mul_right h1
    have := Nat.lt_of_mul_lt_mul_right h2
    omega
  · have hd : d = [] := h
    subst hd
    rw [List.length_nil, List.length_nil, blockCount, Nat.zero_add]
    exact (Nat.div_eq_of_lt (by omega)).symm

/-- **`GetData` on a handle that holds a value.** -/
theorem Holds.getData {t : LinkTable} {p : Nat} {d : List UInt8} (hg : Geometry t)
    (h : Holds t p d) (n : Nat) :
    t.getData p n =
      if n < t.BLOCK_DATA_LEN then .error .badArgument
      else if n < t.blockCount d.length * t.BLOCK_DATA_LEN then .error .notEnoughSpaceForData
      else .ok d := by
  obtain ⟨hb1, hb2⟩ := hg.bdl
  obtain ⟨c, hc, hlen, hused, hst⟩ := h
  rw [getData_stores hb2 (by omega) hc (fun b hb => (hused b hb).2.1) hlen hst,
    hst.length_eq (by omega)]

end MysqlProxy.LinkTable
