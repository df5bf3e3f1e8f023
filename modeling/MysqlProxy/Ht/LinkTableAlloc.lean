/-
  What `GetEmptyBlock` hands out.

  Allocation writes links of EMPTY blocks only (`Relinked`), so no chain of used blocks sees it.
  What it returns is described by a path of empty blocks from the returned position:

  * from the free list (`takeFree_some`): a path of `iCount` blocks whose last link is then cut.
    The list may be cyclic, and then fewer than `iCount` different blocks are left.
  * from the scan (`scanLoop_spec`): the empty blocks in the order the scan met them, each linked
    to the one found before it.

  The scan makes up to `ddwAllBlockCount` rounds although there are only `ddwAllBlockCount - 1`
  usable positions.  If the last round meets the position of the first one again, and that block
  is empty, it is taken a SECOND time and its link, the end of the chain, is overwritten: the
  result is a cycle.  `Overruns` says exactly when this happens, `Cycles` when the free list is the
  one that goes round.
-/
import MysqlProxy.Ht.LinkTableFree
import Mathlib.Data.Finset.Card
import Mathlib.Data.Nat.ModEq
import Mathlib.Data.List.Iterate

namespace MysqlProxy.LinkTable

/-! ## Writing links of empty blocks -/

/-- `t'` is `t` with other links in some empty blocks, and other allocation cursors. -/
structure Relinked (t t' : LinkTable) : Prop where
  all : t'.ddwAllBlockCount = t.ddwAllBlockCount
  free : t'.ddwFreeBlockCount = t.ddwFreeBlockCount
  size : t'.ddwBlockSize = t.ddwBlockSize
  index : t'.ddwRecycleIndex = t.ddwRecycleIndex
  poolSize : t'.dwRecyclePoolSize = t.dwRecyclePoolSize
  pool : t'.addwRecyclePool = t.addwRecyclePool
  len : ∀ b, t'.len b = t.len b
  bufData : ∀ b, (t'.blocks b).bufData = (t.blocks b).bufData
  keep : ∀ b, t.len b ≠ 0 → t'.blocks b = t.blocks b

theorem Relinked.refl (t : LinkTable) : Relinked t t :=
  ⟨rfl, rfl, rfl, rfl, rfl, rfl, fun _ => rfl, fun _ => rfl, fun _ _ => rfl⟩

theorem Relinked.trans {t t' t'' : LinkTable} (h : Relinked t t') (h' : Relinked t' t'') :
    Relinked t t'' where
  all := h'.all.trans h.all
  free := h'.free.trans h.free
  size := h'.size.trans h.size
  index := h'.index.trans h.index
  poolSize := h'.poolSize.trans h.poolSize
  pool := h'.pool.trans h.pool
  len b := (h'.len b).trans (h.len b)
  bufData b := (h'.bufData b).trans (h.bufData b)
  keep b hb := (h'.keep b (h.len b ▸ hb)).trans (h.keep b hb)

theorem setNext_relinked {t : LinkTable} {b : Nat} (n : Nat) (hb : t.len b = 0) :
    Relinked t (t.setNext b n) where
  all := rfl
  free := rfl
  size := rfl
  index := rfl
  poolSize := rfl
  pool := rfl
  len c := setNext_len t b c n
  bufData c := setNext_bufData t b c n
  keep c hc := setNext_blocks_ne t b c n (fun h => hc (h ▸ hb))

/-! ## The free list -/

/-- Following the free list from `p` for `n` steps meets empty blocks only. -/
def FreePath (t : LinkTable) (n p : Nat) : Prop :=
  ∃ l q, Path t.next p l q ∧ l.length = n ∧ ∀ b ∈ l, t.Empty b

/-- The walk succeeds exactly on a path of empty blocks; it cuts the path behind its last
    block. -/
theorem takeFree_some {n p q : Nat} {t t' : LinkTable}
    (h : takeFree (n + 1) p t = (some q, t')) :
    ∃ l y, Path t.next p (l ++ [y]) q ∧ l.length = n ∧ (∀ b ∈ l ++ [y], t.Empty b) ∧
      t' = t.setNext y 0 := by
  induction n generalizing p with
  | zero =>
    rw [takeFree] at h
    split at h
    · next hp =>
      simp only [takeFree, if_true, Prod.mk.injEq, Option.some.injEq] at h
      refine ⟨[], p, ⟨rfl, by omega, h.1⟩, rfl, ?_, h.2.symm⟩
      intro b hb
      obtain rfl : b = p := by simpa using hb
      exact hp
    · simp at h
  | succ n ih =>
    rw [takeFree] at h
    split at h
    · next hp =>
      rw [if_neg (by omega)] at h
      obtain ⟨l, y, hpath, hlen, hemp, ht'⟩ := ih h
      refine ⟨p :: l, y, ⟨rfl, by omega, hpath⟩, by simp [hlen], ?_, ht'⟩
      intro b hb
      rcases List.mem_cons.mp hb with rfl | hb
      · exact hp
      · exact hemp b hb
    · simp at h

/-- The walk fails exactly when the list holds fewer empty blocks, and then it has written
    nothing. -/
theorem takeFree_none {n p : Nat} {t t' : LinkTable} (h : takeFree n p t = (none, t')) :
    t' = t ∧ ¬ FreePath t n p := by
  induction n generalizing p with
  | zero => simp [takeFree] at h
  | succ n ih =>
    rw [takeFree] at h
    split at h
    · next hp =>
      by_cases hn : n = 0
      · subst hn
        simp [takeFree] at h
      · rw [if_neg hn] at h
        obtain ⟨ht', hno⟩ := ih h
        refine ⟨ht', ?_⟩
        rintro ⟨l, q, hpath, hlen, hemp⟩
        cases l with
        | nil => simp at hlen
        | cons x l =>
          obtain ⟨rfl, -, hrest⟩ := hpath
          exact hno ⟨l, q, hrest, by simpa using hlen,
            fun b hb => hemp b (List.mem_cons_of_mem p hb)⟩
    · next hp =>
      refine ⟨(Prod.mk.inj h).2.symm, ?_⟩
      rintro ⟨l, q, hpath, hlen, hemp⟩
      cases l with
      | nil => simp at hlen
      | cons x l =>
        obtain ⟨rfl, -, -⟩ := hpath
        exact hp (hemp p List.mem_cons_self)

theorem freePath_iff {t : LinkTable} {n p : Nat} :
    FreePath t n p ↔ (takeFree n p t).1.isSome := by
  rcases h : takeFree n p t with ⟨_ | q, t'⟩
  · simp [(takeFree_none h).2]
  · refine iff_of_true ?_ rfl
    cases n with
    | zero => exact ⟨[], p, rfl, rfl, by simp⟩
    | succ n =>
      obtain ⟨l, y, hpath, hlen, hemp, -⟩ := takeFree_some h
      exact ⟨l ++ [y], q, hpath, by simp [hlen], hemp⟩

instance (t : LinkTable) (n p : Nat) : Decidable (FreePath t n p) :=
  decidable_of_iff _ freePath_iff.symm

/-! ## The order of the scan -/

/-- The position the scan looks at in round `k` (from `0`), when it starts at `L`. -/
def scanPos (t : LinkTable) (L k : Nat) : Nat := 1 + (L - 1 + k) % (t.ddwAllBlockCount - 1)

section ScanOrder

variable {t : LinkTable} {L : Nat}

theorem scanPos_usable (hN : 2 ≤ t.ddwAllBlockCount) (k : Nat) :
    0 < t.scanPos L k ∧ t.scanPos L k < t.ddwAllBlockCount := by
  have := Nat.mod_lt (L - 1 + k) (show 0 < t.ddwAllBlockCount - 1 by omega)
  unfold scanPos
  omega

theorem scanPos_zero (hL : 0 < L) (hL' : L < t.ddwAllBlockCount) : t.scanPos L 0 = L := by
  unfold scanPos
  rw [Nat.add_zero, Nat.mod_eq_of_lt (by omega)]
  omega

/-- After as many rounds as there are usable positions the scan is back at its start. -/
theorem scanPos_wrap : t.scanPos L (t.ddwAllBlockCount - 1) = t.scanPos L 0 := by
  unfold scanPos
  rw [Nat.add_mod_right, Nat.add_zero]

theorem nextPos_scanPos (hN : 2 ≤ t.ddwAllBlockCount) (k : Nat) :
    t.nextPos (t.scanPos L k) = t.scanPos L (k + 1) := by
  unfold nextPos scanPos
  rw [← Nat.add_assoc]
  generalize L - 1 + k = x
  generalize hm : t.ddwAllBlockCount - 1 = m
  have hlt := Nat.mod_lt x (show 0 < m by omega)
  rw [Nat.add_mod_eq_ite]
  rcases Nat.lt_or_ge 1 m with h1 | h1
  · rw [Nat.mod_eq_of_lt h1]
    split <;> split <;> omega
  · obtain rfl : m = 1 := by omega
    split <;> split <;> omega

/-- In one turn the scan meets no position twice. -/
theorem scanPos_injOn {i j : Nat} (hi : i < t.ddwAllBlockCount - 1)
    (hj : j < t.ddwAllBlockCount - 1) (h : t.scanPos L i = t.scanPos L j) : i = j := by
  have hmod : L - 1 + i ≡ L - 1 + j [MOD t.ddwAllBlockCount - 1] :=
    Nat.add_left_cancel (n := 1) h
  exact (Nat.ModEq.add_left_cancel' (L - 1) hmod).eq_of_lt_of_lt hi hj

end ScanOrder

/-- The positions met in the first `k` rounds, in that order. -/
def scanned (t : LinkTable) (L k : Nat) : List Nat := (List.range k).map (t.scanPos L)

theorem scanned_succ (t : LinkTable) (L k : Nat) :
    t.scanned L (k + 1) = t.scanned L k ++ [t.scanPos L k] := by
  simp [scanned, List.range_succ]

theorem scanned_nodup {t : LinkTable} {L k : Nat} (hk : k ≤ t.ddwAllBlockCount - 1) :
    (t.scanned L k).Nodup := by
  refine List.Nodup.map_on ?_ List.nodup_range
  intro i hi j hj h
  rw [List.mem_range] at hi hj
  exact scanPos_injOn (by omega) (by omega) h

theorem scanned_full {t : LinkTable} {L : Nat} (hN : 2 ≤ t.ddwAllBlockCount) :
    (t.scanned L (t.ddwAllBlockCount - 1)).toFinset = Finset.Ioo 0 t.ddwAllBlockCount := by
  refine Finset.eq_of_subset_of_card_le ?_ ?_
  · intro b hb
    simp only [scanned, List.mem_toFinset, List.mem_map] at hb
    obtain ⟨i, -, rfl⟩ := hb
    exact Finset.mem_Ioo.mpr (scanPos_usable hN i)
  · rw [List.toFinset_card_of_nodup (scanned_nodup (Nat.le_refl _)), Nat.card_Ioo]
    simp [scanned]

/-- The empty usable blocks. -/
def emptyBlocks (t : LinkTable) : Finset Nat :=
  (Finset.Ioo 0 t.ddwAllBlockCount).filter fun b => t.len b = 0

theorem emptyBlocks_tiny {t : LinkTable} (h : t.ddwAllBlockCount ≤ 1) : t.emptyBlocks = ∅ := by
  refine Finset.eq_empty_of_forall_notMem fun b hb => ?_
  obtain ⟨h0, h1⟩ := Finset.mem_Ioo.mp (Finset.mem_filter.mp hb).1
  omega

theorem mem_emptyBlocks {t : LinkTable} {b : Nat} : b ∈ t.emptyBlocks ↔ t.Empty b := by
  rw [emptyBlocks, Finset.mem_filter, Finset.mem_Ioo, Empty, and_assoc]

/-- A full turn meets every empty block once. -/
theorem scanned_full_empty {t : LinkTable} {L : Nat} (hN : 2 ≤ t.ddwAllBlockCount) :
    ((t.scanned L (t.ddwAllBlockCount - 1)).filter fun b => t.len b = 0).length =
      t.emptyBlocks.card := by
  have hnd := (scanned_nodup (t := t) (L := L) (Nat.le_refl _)).filter fun b => decide (t.len b = 0)
  rw [← List.toFinset_card_of_nodup hnd, List.toFinset_filter, scanned_full hN]
  simp [emptyBlocks]

theorem mem_scanned_usable {t : LinkTable} {L k b : Nat} (hN : 2 ≤ t.ddwAllBlockCount)
    (hb : b ∈ t.scanned L k) : 0 < b ∧ b < t.ddwAllBlockCount := by
  simp only [scanned, List.mem_map] at hb
  obtain ⟨i, -, rfl⟩ := hb
  exact scanPos_usable hN i

/-! ## The scan -/

/-- After `k` rounds of the scan that started on `t` at `L`: `found` are the empty blocks met so
    far, the last one first, and they form the chain at `ddwStartPos`. -/
structure ScanInv (t : LinkTable) (L iCount k : Nat) (s : Scan) (found : List Nat) : Prop where
  cur : s.ddwCurPos = t.scanPos L k
  met : found.reverse = (t.scanned L k).filter fun b => t.len b = 0
  left : s.left + found.length = iCount
  chain : Chain s.table.next s.ddwStartPos found
  relinked : Relinked t s.table

theorem ScanInv.mem {t : LinkTable} {L iCount k b : Nat} {s : Scan} {found : List Nat}
    (h : ScanInv t L iCount k s found) (hb : b ∈ found) : b ∈ t.scanned L k ∧ t.len b = 0 := by
  rw [← List.mem_reverse, h.met, List.mem_filter] at hb
  exact ⟨hb.1, of_decide_eq_true hb.2⟩

theorem ScanInv.empty {t : LinkTable} {L iCount k : Nat} {s : Scan} {found : List Nat}
    (h : ScanInv t L iCount k s found) (hN : 2 ≤ t.ddwAllBlockCount) : ∀ b ∈ found, t.Empty b := by
  intro b hb
  obtain ⟨hmem, hlen⟩ := h.mem hb
  obtain ⟨h0, h1⟩ := mem_scanned_usable hN hmem
  exact ⟨h0, h1, hlen⟩

theorem ScanInv.start_lt {t : LinkTable} {L iCount k : Nat} {s : Scan} {found : List Nat}
    (h : ScanInv t L iCount k s found) (hN : 2 ≤ t.ddwAllBlockCount) :
    s.ddwStartPos < t.ddwAllBlockCount := by
  cases found with
  | nil => rw [chain_nil.mp h.chain]; omega
  | cons x l => rw [h.chain.1]; exact (h.empty hN x List.mem_cons_self).2.1

/-- One round. -/
theorem scanStep_inv {t : LinkTable} {L iCount k : Nat} {s : Scan} {found : List Nat}
    (hN : 2 ≤ t.ddwAllBlockCount) (hall : t.ddwAllBlockCount ≤ 2 ^ 48)
    (hk : k < t.ddwAllBlockCount - 1) (hleft : s.left ≠ 0) (h : ScanInv t L iCount k s found) :
    ∃ found', ScanInv t L iCount (k + 1) (scanStep s) found' := by
  have hnext : s.table.nextPos s.ddwCurPos = t.scanPos L (k + 1) := by
    rw [h.cur, ← nextPos_scanPos hN, nextPos, nextPos, h.relinked.all]
  have hmet : (t.scanned L (k + 1)).filter (fun b => t.len b = 0) =
      found.reverse ++ [t.scanPos L k].filter (fun b => t.len b = 0) := by
    rw [scanned_succ, List.filter_append, h.met]
  unfold scanStep
  by_cases hcur : s.table.len s.ddwCurPos = 0
  · have hlen : t.len (t.scanPos L k) = 0 := by rw [← h.cur, ← h.relinked.len, hcur]
    -- the position of round `k` is new
    have hnew : s.ddwCurPos ∉ found := by
      intro hmem
      have hnd := scanned_nodup (t := t) (L := L) (show k + 1 ≤ _ from hk)
      rw [scanned_succ, List.nodup_append'] at hnd
      exact hnd.2.2 (h.mem hmem).1 (by rw [h.cur]; exact List.mem_singleton.mpr rfl)
    have hpos : s.ddwCurPos ≠ 0 := by
      rw [h.cur]; exact Nat.ne_of_gt (scanPos_usable hN k).1
    have hstart : s.ddwStartPos % 2 ^ 48 = s.ddwStartPos :=
      Nat.mod_eq_of_lt (Nat.lt_of_lt_of_le (h.start_lt hN) hall)
    rw [if_pos hcur]
    refine ⟨s.ddwCurPos :: found, hnext, ?_, ?_, ⟨rfl, hpos, ?_⟩, ?_⟩
    · rw [hmet, List.reverse_cons, h.cur]
      simp [hlen]
    · have := h.left
      simp only [List.length_cons]
      omega
    · rw [setNext_next_self, hstart]
      exact h.chain.frame fun b hb =>
        setNext_next_ne _ _ _ _ (fun heq => hnew (heq ▸ hb))
    · exact h.relinked.trans (setNext_relinked _ hcur)
  · have hlen : t.len (t.scanPos L k) ≠ 0 := by rw [← h.cur, ← h.relinked.len]; exact hcur
    rw [if_neg hcur]
    refine ⟨found, hnext, ?_, h.left, h.chain, h.relinked⟩
    rw [hmet]
    simp [hlen]

theorem scanLoop_done {s : Scan} (j : Nat) (h : s.left = 0) : scanLoop j s = s := by
  cases j with
  | zero => rfl
  | succ j => rw [scanLoop, if_pos h]

theorem scanLoop_add (i j : Nat) (s : Scan) : scanLoop (i + j) s = scanLoop j (scanLoop i s) := by
  induction i generalizing s with
  | zero => rw [Nat.zero_add, scanLoop]
  | succ i ih =>
    rw [Nat.succ_add, scanLoop, scanLoop]
    split
    · next h => rw [scanLoop_done j h]
    · exact ih (scanStep s)

/-- Up to one turn of rounds. -/
theorem scanLoop_inv {t : LinkTable} {L iCount : Nat} (hN : 2 ≤ t.ddwAllBlockCount)
    (hall : t.ddwAllBlockCount ≤ 2 ^ 48) (j : Nat) : ∀ {k : Nat} {s : Scan} {found : List Nat},
    k + j ≤ t.ddwAllBlockCount - 1 → ScanInv t L iCount k s found →
    ∃ k' found', ScanInv t L iCount k' (scanLoop j s) found' ∧ k' ≤ k + j ∧
      ((scanLoop j s).left ≠ 0 → k' = k + j) := by
  induction j with
  | zero =>
    intro k s found _ h
    exact ⟨k, found, h, Nat.le_refl _, fun _ => rfl⟩
  | succ j ih =>
    intro k s found hk h
    by_cases hleft : s.left = 0
    · rw [scanLoop_done _ hleft]
      exact ⟨k, found, h, by omega, fun hne => absurd hleft hne⟩
    · rw [scanLoop, if_neg hleft]
      obtain ⟨found', h'⟩ := scanStep_inv hN hall (by omega) hleft h
      obtain ⟨k', found'', h1, h2, h3⟩ := ih (by omega) h'
      exact ⟨k', found'', h1, by omega, fun hne => by have := h3 hne; omega⟩

theorem scanInv_start {t : LinkTable} {L : Nat} (iCount : Nat) (hL : 0 < L)
    (hL' : L < t.ddwAllBlockCount) :
    ScanInv t L iCount 0 { left := iCount, ddwCurPos := L, ddwStartPos := 0, table := t } [] where
  cur := (scanPos_zero hL hL').symm
  met := rfl
  left := rfl
  chain := Chain.zero
  relinked := Relinked.refl t

/-- The blocks found are different empty blocks. -/
theorem ScanInv.length_le {t : LinkTable} {L iCount k : Nat} {s : Scan} {found : List Nat}
    (h : ScanInv t L iCount k s found) (hN : 2 ≤ t.ddwAllBlockCount) :
    found.length ≤ t.emptyBlocks.card := by
  rw [← List.toFinset_card_of_nodup h.chain.nodup]
  exact Finset.card_le_card fun b hb => mem_emptyBlocks.mpr (h.empty hN b (List.mem_toFinset.mp hb))

/-- After a full turn every empty block has been found. -/
theorem ScanInv.length_full {t : LinkTable} {L iCount : Nat} {s : Scan} {found : List Nat}
    (h : ScanInv t L iCount (t.ddwAllBlockCount - 1) s found) (hN : 2 ≤ t.ddwAllBlockCount) :
    found.length = t.emptyBlocks.card := by
  rw [← scanned_full_empty (L := L) hN, ← h.met, List.length_reverse]

theorem ScanInv.mem_of_full {t : LinkTable} {L iCount b : Nat} {s : Scan} {found : List Nat}
    (h : ScanInv t L iCount (t.ddwAllBlockCount - 1) s found) (hN : 2 ≤ t.ddwAllBlockCount)
    (hb : t.Empty b) : b ∈ found := by
  have hmem : b ∈ (t.scanned L (t.ddwAllBlockCount - 1)).toFinset := by
    rw [scanned_full hN]
    exact Finset.mem_Ioo.mpr ⟨hb.1, hb.2.1⟩
  rw [← List.mem_reverse, h.met, List.mem_filter]
  exact ⟨List.mem_toFinset.mp hmem, decide_eq_true hb.2.2⟩

/-- **The round after a full turn** takes the first block a second time, if it is empty, and
    closes the chain to a cycle. -/
theorem scanStep_again {t : LinkTable} {L iCount : Nat} {s : Scan} {found : List Nat}
    (hL : 0 < L) (hL' : L < t.ddwAllBlockCount) (hN : 2 ≤ t.ddwAllBlockCount)
    (hall : t.ddwAllBlockCount ≤ 2 ^ 48) (hlen : t.len L = 0)
    (h : ScanInv t L iCount (t.ddwAllBlockCount - 1) s found) :
    (scanStep s).left = s.left - 1 ∧ Relinked t (scanStep s).table ∧
      (scanStep s).ddwCurPos = t.nextPos L ∧
      Path (scanStep s).table.next (scanStep s).ddwStartPos (L :: found) s.ddwStartPos ∧
      ∃ rest, found = rest ++ [L] := by
  have hcur : s.ddwCurPos = L := by rw [h.cur, scanPos_wrap, scanPos_zero hL hL']
  have hlen' : s.table.len L = 0 := by rw [h.relinked.len, hlen]
  -- the first block of the turn is the last one of the chain
  obtain ⟨rest, hrest⟩ : ∃ rest, found = rest ++ [L] := by
    have hsplit : t.scanned L (t.ddwAllBlockCount - 1) =
        L :: (List.range (t.ddwAllBlockCount - 2)).map (fun i => t.scanPos L (i + 1)) := by
      have hm : t.ddwAllBlockCount - 1 = t.ddwAllBlockCount - 2 + 1 := by omega
      rw [scanned, hm, List.range_succ_eq_map, List.map_cons, List.map_map, scanPos_zero hL hL']
      rfl
    have hmet := h.met
    rw [hsplit, List.filter_cons_of_pos (by simpa using hlen)] at hmet
    exact ⟨_, by rw [← List.reverse_reverse found, hmet, List.reverse_cons]⟩
  have hnd := h.chain.nodup
  have hchain := h.chain
  rw [hrest] at hnd hchain
  have hfresh : ∀ b ∈ rest, b ≠ L := by
    rintro b hb rfl
    exact (List.nodup_append'.mp hnd).2.2 hb (List.mem_singleton.mpr rfl)
  have hstart : s.ddwStartPos % 2 ^ 48 = s.ddwStartPos :=
    Nat.mod_eq_of_lt (Nat.lt_of_lt_of_le (h.start_lt hN) hall)
  have hnext : (s.table.setNext L s.ddwStartPos).next L = s.ddwStartPos := by
    rw [setNext_next_self, hstart]
  unfold scanStep
  rw [hcur, if_pos hlen']
  refine ⟨rfl, h.relinked.trans (setNext_relinked _ hlen'), ?_, ⟨rfl, by omega, ?_⟩, ?_⟩
  · rw [nextPos, nextPos, h.relinked.all]
  · show Path (s.table.setNext L s.ddwStartPos).next
      ((s.table.setNext L s.ddwStartPos).next L) found s.ddwStartPos
    rw [hnext, hrest]
    refine (Path.frame (Path.initial hchain) fun b hb => ?_).append ⟨rfl, by omega, hnext⟩
    exact setNext_next_ne _ _ _ _ (hfresh b hb)
  · exact ⟨rest, hrest⟩

/-! ## Allocation as a whole -/

/-- The scan cursor stands on a usable position, or on `1` when there is none. -/
def CursorOk (t : LinkTable) : Prop :=
  0 < t.ddwLastEmpty ∧ (t.ddwLastEmpty < t.ddwAllBlockCount ∨
    t.ddwAllBlockCount ≤ 1 ∧ t.ddwLastEmpty = 1)

/-- A request that makes the scan take its first block twice: the free list is too short for it,
    the block at the cursor is empty, and it asks for exactly one block more than there are empty
    ones, which the free count (too high by one from the start) does not reveal. -/
def Overruns (t : LinkTable) (iCount : Nat) : Prop :=
  iCount ≤ MAX_BLOCK_COUNT ∧ (iCount : Int) ≤ int32 t.ddwFreeBlockCount ∧
    ¬ FreePath t iCount t.ddwFirstFreePos ∧
    2 ≤ t.ddwAllBlockCount ∧ t.ddwAllBlockCount < 2 ^ 31 ∧ t.len t.ddwLastEmpty = 0 ∧
    iCount = t.emptyBlocks.card + 1

instance (t : LinkTable) (iCount : Nat) : Decidable (t.Overruns iCount) :=
  inferInstanceAs (Decidable (_ ∧ _ ∧ _ ∧ _ ∧ _ ∧ _ ∧ _))

/-- A request that the free list seems to satisfy, although its first `iCount` steps meet a block
    twice. -/
def Cycles (t : LinkTable) (iCount : Nat) : Prop :=
  iCount ≤ MAX_BLOCK_COUNT ∧ (iCount : Int) ≤ int32 t.ddwFreeBlockCount ∧
    FreePath t iCount t.ddwFirstFreePos ∧
    ¬ (List.iterate t.next t.ddwFirstFreePos iCount).Nodup

instance (t : LinkTable) (iCount : Nat) : Decidable (t.Cycles iCount) :=
  inferInstanceAs (Decidable (_ ∧ _ ∧ _ ∧ _))

theorem Cycles.not_overruns {t : LinkTable} {iCount : Nat} (h : t.Cycles iCount) :
    ¬ t.Overruns iCount := fun ho => ho.2.2.1 h.2.2.1

/-- The path that a successful `GetEmptyBlock` returns: empty blocks, `iCount` of them unless it
    ends early because the free list goes round, all different unless the request overruns. -/
structure HandedOut (t t' : LinkTable) (iCount p : Nat) (l : List Nat) (q : Nat) : Prop where
  path : Path t'.next p l q
  ne : l ≠ []
  empty : ∀ b ∈ l, t.Empty b
  le : l.length ≤ iCount
  short : l.length < iCount → q = 0
  cycles : l.length < iCount ↔ t.Cycles iCount
  nodup : ¬ t.Overruns iCount → l.Nodup
  twice : t.Overruns iCount → l.length = iCount ∧ ¬ l.Nodup
  all : t.Overruns iCount → ∀ b, t.Empty b → b ∈ l
  /-- An overrun ends where it began. -/
  round : t.Overruns iCount → l.getLast? = some p

/-- What a call of `GetEmptyBlock` on `t` leaves behind: links of empty blocks changed, and either
    an error, or a position past the end (a table without usable blocks), or a path.  Where the
    scan is not cut short by the cast of the block count, a request that passes the first test is
    refused only if there are too few empty blocks. -/
structure Allocated (t : LinkTable) (iCount : Nat) (r : Except LtError Nat × LinkTable) :
    Prop where
  relinked : Relinked t r.2
  cursor : r.2.CursorOk
  error : ∀ e, r.1 = .error e → e = .notEnoughSpace ∧ ¬ t.Overruns iCount ∧ ¬ t.Cycles iCount
  full : ∀ e, r.1 = .error e → iCount ≤ MAX_BLOCK_COUNT → (iCount : Int) ≤ int32 t.ddwFreeBlockCount →
    t.ddwAllBlockCount < 2 ^ 31 → t.emptyBlocks.card < iCount
  ok : ∀ p, r.1 = .ok p → (p = 1 ∧ t.ddwAllBlockCount ≤ 1 ∧ ¬ t.Overruns iCount) ∨
    ∃ l q, HandedOut t r.2 iCount p l q

theorem Relinked.cursorOk {t t' : LinkTable} (h : Relinked t t')
    (hlast : t'.ddwLastEmpty = t.ddwLastEmpty) (hcur : t.CursorOk) : t'.CursorOk := by
  unfold CursorOk
  rw [hlast, h.all]
  exact hcur

/-- The allocation from the free list. -/
theorem takeFree_allocated {t t' : LinkTable} {iCount q : Nat} (hn : 0 < iCount)
    (hmax : iCount ≤ MAX_BLOCK_COUNT) (hfree : (iCount : Int) ≤ int32 t.ddwFreeBlockCount)
    (hcur : t.CursorOk) (h : takeFree iCount t.ddwFirstFreePos t = (some q, t')) :
    Allocated t iCount (.ok t.ddwFirstFreePos, { t' with ddwFirstFreePos := q }) := by
  obtain ⟨n, rfl⟩ : ∃ n, iCount = n + 1 := ⟨iCount - 1, by omega⟩
  obtain ⟨l, y, hpath, hlen, hemp, rfl⟩ := takeFree_some h
  have hy : t.len y = 0 := (hemp y (List.mem_append_right l (List.mem_singleton.mpr rfl))).2.2
  have hrel : Relinked t (t.setNext y 0) := setNext_relinked 0 hy
  have hno : ¬ t.Overruns (n + 1) :=
    fun ho => ho.2.2.1 ⟨l ++ [y], q, hpath, by simp [hlen], hemp⟩
  obtain ⟨c, hc, hne, hsub, hclen, hnd⟩ := hpath.cut (g := (t.setNext y 0).next)
    (setNext_next_self t y 0) (fun x hx => setNext_next_ne t y x 0 hx)
  have hll : (l ++ [y]).length = n + 1 := by simp [hlen]
  have hcycles : c.length < n + 1 ↔ t.Cycles (n + 1) := by
    have hiff := hc.length_lt_iff hsub (by omega) hnd
    rw [hpath.eq_iterate, hll, List.length_iterate] at hiff
    rw [hiff]
    exact ⟨fun h => ⟨hmax, hfree, ⟨l ++ [y], q, hpath, hll, hemp⟩, h⟩, fun h => h.2.2.2⟩
  refine ⟨⟨hrel.1, hrel.2, hrel.3, hrel.4, hrel.5, hrel.6, hrel.7, hrel.8, hrel.9⟩, hcur,
    fun e he => by simp at he, fun e he => by simp at he, fun p hp => .inr ⟨c, 0, ?_⟩⟩
  obtain rfl : t.ddwFirstFreePos = p := by simpa using hp
  exact ⟨hc, hne, fun b hb => hemp b (hsub hb), by omega, fun _ => rfl, hcycles, fun _ => hc.nodup,
    fun ho => absurd ho hno, fun ho => absurd ho hno, fun ho => absurd ho hno⟩

/-- What `GetEmptyBlock` makes of the state the scan ends in. -/
def Scan.result (s : Scan) : Except LtError Nat × LinkTable :=
  if s.left ≠ 0 then (.error .notEnoughSpace, s.table)
  else (.ok s.ddwStartPos, { s.table with ddwLastEmpty := s.ddwCurPos })

/-- The scan branch of `GetEmptyBlock`. -/
def scanEmpty (t : LinkTable) (iCount : Nat) : Except LtError Nat × LinkTable :=
  (scanLoop (int32 t.ddwAllBlockCount).toNat
    { left := iCount, ddwCurPos := t.ddwLastEmpty, ddwStartPos := 0, table := t }).result

theorem scanStep_last (s : Scan) : (scanStep s).table.ddwLastEmpty = s.table.ddwLastEmpty := by
  rw [scanStep]
  split <;> rfl

theorem scanLoop_last (j : Nat) (s : Scan) :
    (scanLoop j s).table.ddwLastEmpty = s.table.ddwLastEmpty := by
  induction j generalizing s with
  | zero => rfl
  | succ j ih =>
    rw [scanLoop]
    split
    · rfl
    · rw [ih, scanStep_last]

theorem cursorOk_nextPos {t t' : LinkTable} {p : Nat}
    (hall : t'.ddwAllBlockCount = t.ddwAllBlockCount) (hp : t'.ddwLastEmpty = t.nextPos p) :
    t'.CursorOk := by
  unfold CursorOk
  rw [hp, hall, nextPos]
  split <;> omega

/-- A scan that comes short. -/
theorem allocated_short {t : LinkTable} {iCount : Nat} {s : Scan} (hleft : s.left ≠ 0)
    (hrel : Relinked t s.table) (hlast : s.table.ddwLastEmpty = t.ddwLastEmpty)
    (hcur : t.CursorOk) (hno : ¬ t.Overruns iCount) (hpath : ¬ FreePath t iCount t.ddwFirstFreePos)
    (hfull : t.ddwAllBlockCount < 2 ^ 31 → t.emptyBlocks.card < iCount) :
    Allocated t iCount s.result := by
  rw [Scan.result, if_pos hleft]
  exact ⟨hrel, hrel.cursorOk hlast hcur,
    fun e he => ⟨by simpa using he.symm, hno, fun hc => hpath hc.2.2.1⟩, fun _ _ _ _ => hfull,
    fun p hp => by simp at hp⟩

/-- A scan that finds enough inside its first turn. -/
theorem ScanInv.allocated {t : LinkTable} {iCount k : Nat} {s : Scan} {found : List Nat}
    (h : ScanInv t t.ddwLastEmpty iCount k s found) (hn : 0 < iCount) (hleft : s.left = 0)
    (hpath : ¬ FreePath t iCount t.ddwFirstFreePos) (hN : 2 ≤ t.ddwAllBlockCount) :
    Allocated t iCount s.result := by
  have hrel := h.relinked
  have hlen : found.length = iCount := by have := h.left; omega
  have hno : ¬ t.Overruns iCount := by
    rintro ⟨-, -, -, -, -, -, hE⟩
    have := h.length_le hN
    omega
  rw [Scan.result, if_neg (by simpa using hleft)]
  refine ⟨⟨hrel.1, hrel.2, hrel.3, hrel.4, hrel.5, hrel.6, hrel.7, hrel.8, hrel.9⟩, ?_,
    fun e he => by simp at he, fun e he => by simp at he, fun p hp => .inr ⟨found, 0, ?_⟩⟩
  · have hpos := scanPos_usable (L := t.ddwLastEmpty) hN k
    rw [← h.cur] at hpos
    exact ⟨hpos.1, .inl (hrel.all ▸ hpos.2)⟩
  · obtain rfl : s.ddwStartPos = p := by simpa using hp
    refine ⟨h.chain, ?_, h.empty hN, by omega, fun hlt => by omega,
      iff_of_false (by omega) (fun hc => hpath hc.2.2.1), fun _ => h.chain.nodup,
      fun ho => absurd ho hno, fun ho => absurd ho hno, fun ho => absurd ho hno⟩
    rintro rfl
    simp at hlen
    omega

/-- The round after a full turn that came short. -/
theorem scanStep_allocated {t : LinkTable} {iCount : Nat} {s : Scan} {found : List Nat}
    (hmax : iCount ≤ MAX_BLOCK_COUNT) (hfree : (iCount : Int) ≤ int32 t.ddwFreeBlockCount)
    (hpath : ¬ FreePath t iCount t.ddwFirstFreePos) (hN : 2 ≤ t.ddwAllBlockCount)
    (h31 : t.ddwAllBlockCount < 2 ^ 31) (hcur : t.CursorOk)
    (hL' : t.ddwLastEmpty < t.ddwAllBlockCount) (hleft : s.left ≠ 0)
    (hlast : s.table.ddwLastEmpty = t.ddwLastEmpty)
    (h : ScanInv t t.ddwLastEmpty iCount (t.ddwAllBlockCount - 1) s found) :
    Allocated t iCount (scanStep s).result := by
  have hE := h.length_full hN
  have hcount := h.left
  by_cases hlen : t.len t.ddwLastEmpty = 0
  · obtain ⟨hleft', hrel, hcur', hcyc, rest, hrest⟩ :=
      scanStep_again hcur.1 hL' hN (by omega) hlen h
    have hmem : t.ddwLastEmpty ∈ found := by rw [hrest]; simp
    by_cases hone : s.left = 1
    · have hover : t.Overruns iCount := ⟨hmax, hfree, hpath, hN, h31, hlen, by omega⟩
      have hlen' : (t.ddwLastEmpty :: found).length = iCount := by rw [List.length_cons]; omega
      rw [Scan.result, if_neg (by omega)]
      refine ⟨⟨hrel.1, hrel.2, hrel.3, hrel.4, hrel.5, hrel.6, hrel.7, hrel.8, hrel.9⟩,
        cursorOk_nextPos hrel.all hcur', fun e he => by simp at he, fun e he => by simp at he,
        fun p hp => .inr ⟨t.ddwLastEmpty :: found, s.ddwStartPos, ?_⟩⟩
      obtain rfl : (scanStep s).ddwStartPos = p := by simpa using hp
      refine ⟨hcyc, by simp, ?_, by omega, fun hlt => by omega,
        iff_of_false (by omega) (fun hc => hpath hc.2.2.1), fun hno => absurd hover hno,
        fun _ => ⟨hlen', fun hnd => (List.nodup_cons.mp hnd).1 hmem⟩,
        fun _ b hb => List.mem_cons_of_mem _ (h.mem_of_full hN hb), fun _ => ?_⟩
      · intro b hb
        rcases List.mem_cons.mp hb with rfl | hb
        · exact ⟨hcur.1, hL', hlen⟩
        · exact h.empty hN b hb
      · rw [hcyc.1, hrest, ← List.cons_append, List.getLast?_append]
        simp
    · refine allocated_short (by omega) hrel ((scanStep_last s).trans hlast) hcur ?_ hpath
        (fun _ => by omega)
      rintro ⟨-, -, -, -, -, -, hE'⟩
      omega
  · have hlen1 : s.table.len s.ddwCurPos ≠ 0 := by
      rw [h.cur, scanPos_wrap, scanPos_zero hcur.1 hL', h.relinked.len]; exact hlen
    rw [scanStep, if_neg hlen1]
    exact allocated_short (by simpa using hleft) h.relinked hlast hcur
      (fun ho => hlen ho.2.2.2.2.2.1) hpath (fun _ => by omega)

/-- The allocation by the scan, on a table with usable blocks. -/
theorem scanEmpty_allocated {t : LinkTable} {iCount : Nat} (hn : 0 < iCount)
    (hmax : iCount ≤ MAX_BLOCK_COUNT) (hfree : (iCount : Int) ≤ int32 t.ddwFreeBlockCount)
    (hN : 2 ≤ t.ddwAllBlockCount) (hall : t.ddwAllBlockCount ≤ 2 ^ 48) (hcur : t.CursorOk)
    (hpath : ¬ FreePath t iCount t.ddwFirstFreePos) : Allocated t iCount (t.scanEmpty iCount) := by
  have hL' : t.ddwLastEmpty < t.ddwAllBlockCount := by
    rcases hcur.2 with h | h
    · exact h
    · omega
  have hinit := scanInv_start iCount hcur.1 hL'
  unfold scanEmpty
  generalize hs0 : ({ left := iCount, ddwCurPos := t.ddwLastEmpty, ddwStartPos := 0, table := t } :
    Scan) = s0 at hinit ⊢
  have hlast : ∀ j, (scanLoop j s0).table.ddwLastEmpty = t.ddwLastEmpty := by
    intro j
    rw [scanLoop_last, ← hs0]
  have hJ := int32_le (x := (t.ddwAllBlockCount : Int)) (by omega)
  have hJ2 := int32_lt (t.ddwAllBlockCount : Int)
  have h31 : t.ddwAllBlockCount < 2 ^ 31 → int32 t.ddwAllBlockCount = t.ddwAllBlockCount :=
    fun h => int32_of_lt (by omega) (by omega)
  generalize int32 t.ddwAllBlockCount = J at hJ hJ2 h31
  by_cases hturn : J.toNat ≤ t.ddwAllBlockCount - 1
  · -- the cast of the block count cuts the scan short: at most one turn
    have hno : ¬ t.Overruns iCount := by
      rintro ⟨-, -, -, -, hlt, -, -⟩
      have := h31 hlt
      omega
    obtain ⟨k, found, hinv, -, -⟩ := scanLoop_inv hN hall J.toNat (by omega) hinit
    by_cases hleft : (scanLoop J.toNat s0).left = 0
    · exact hinv.allocated hn hleft hpath hN
    · exact allocated_short hleft hinv.relinked (hlast J.toNat) hcur hno hpath
        (fun hlt => by have := h31 hlt; omega)
  · have hJeq : J.toNat = (t.ddwAllBlockCount - 1) + 1 := by omega
    rw [hJeq, scanLoop_add]
    obtain ⟨k, found, hinv, -, hk⟩ :=
      scanLoop_inv hN hall (t.ddwAllBlockCount - 1) (by omega) hinit
    have hlast1 := hlast (t.ddwAllBlockCount - 1)
    generalize scanLoop (t.ddwAllBlockCount - 1) s0 = s1 at hinv hk hlast1 ⊢
    by_cases hleft : s1.left = 0
    · rw [scanLoop_done 1 hleft]
      exact hinv.allocated hn hleft hpath hN
    · obtain rfl : k = t.ddwAllBlockCount - 1 := by have := hk hleft; omega
      rw [scanLoop, if_neg hleft, scanLoop]
      exact scanStep_allocated hmax hfree hpath hN (by omega) hcur hL' hleft hlast1 hinv

/-- The scan on a table without usable blocks can only find the block behind the sentinel. -/
theorem scanEmpty_tiny {t : LinkTable} {iCount : Nat} (hn : 0 < iCount)
    (hN : t.ddwAllBlockCount ≤ 1) (hcur : t.CursorOk)
    (hpath : ¬ FreePath t iCount t.ddwFirstFreePos) : Allocated t iCount (t.scanEmpty iCount) := by
  have hfull : t.emptyBlocks.card < iCount := by rwa [emptyBlocks_tiny hN, Finset.card_empty]
  have hno : ¬ t.Overruns iCount := fun ho => by have := ho.2.2.2.1; omega
  have hL : t.ddwLastEmpty = 1 := by
    rcases hcur with ⟨h0, h | h⟩ <;> omega
  have hleft : iCount ≠ 0 := by omega
  unfold scanEmpty
  rw [int32_of_lt (by omega) (by omega), Int.toNat_natCast]
  rcases Nat.lt_or_ge t.ddwAllBlockCount 1 with h0 | h1
  · obtain h0 : t.ddwAllBlockCount = 0 := by omega
    rw [h0, scanLoop]
    exact allocated_short hleft (Relinked.refl t) rfl hcur hno hpath (fun _ => hfull)
  · obtain h1 : t.ddwAllBlockCount = 1 := by omega
    have hstep : ∀ s : Scan, s.left = iCount → scanLoop 1 s = scanStep s := by
      intro s hs
      rw [scanLoop, if_neg (hs ▸ hleft), scanLoop]
    rw [h1, hstep _ rfl, scanStep, hL]
    by_cases hlen : t.len 1 = 0
    · have hrel := setNext_relinked 0 hlen
      rw [if_pos hlen]
      by_cases hone : iCount - 1 = 0
      · rw [Scan.result, if_neg (by simpa using hone)]
        refine ⟨⟨hrel.1, hrel.2, hrel.3, hrel.4, hrel.5, hrel.6, hrel.7, hrel.8, hrel.9⟩,
          cursorOk_nextPos (t := t) rfl rfl, fun e he => by simp at he, fun e he => by simp at he,
          fun p hp => .inl ?_⟩
        obtain rfl : 1 = p := by simpa using hp
        exact ⟨rfl, hN, hno⟩
      · exact allocated_short hone hrel rfl hcur hno hpath (fun _ => hfull)
    · rw [if_neg hlen]
      exact allocated_short hleft (Relinked.refl t) rfl hcur hno hpath (fun _ => hfull)

/-- **`GetEmptyBlock`** on any table whose cursor is in range. -/
theorem getEmptyBlock_allocated {t : LinkTable} {iCount : Nat} (hn : 0 < iCount)
    (hall : t.ddwAllBlockCount ≤ 2 ^ 48) (hcur : t.CursorOk) :
    Allocated t iCount (t.getEmptyBlock iCount) := by
  unfold getEmptyBlock
  by_cases hbig : iCount > MAX_BLOCK_COUNT ∨ (iCount : Int) > int32 t.ddwFreeBlockCount
  · rw [if_pos hbig]
    refine ⟨Relinked.refl t, hcur, fun e he => ⟨by simpa using he.symm, ?_, ?_⟩,
      fun e he h1 h2 => by omega, fun p hp => by simp at hp⟩
    · rintro ⟨h1, h2, -⟩
      omega
    · rintro ⟨h1, h2, -⟩
      omega
  · rw [if_neg hbig]
    rcases htake : takeFree iCount t.ddwFirstFreePos t with ⟨_ | q, t'⟩
    · obtain ⟨rfl, hno⟩ := takeFree_none htake
      show Allocated t' iCount (t'.scanEmpty iCount)
      rcases Nat.lt_or_ge 1 t'.ddwAllBlockCount with hN | hN
      · exact scanEmpty_allocated hn (by omega) (by omega) hN hall hcur hno
      · exact scanEmpty_tiny hn hN hcur hno
    · exact takeFree_allocated hn (by omega) (by omega) hcur htake

end MysqlProxy.LinkTable
