/-
  Whole runs of a `MultiHashTable`.

  A run starts with `InitFromBuffer` (`Created`) and makes calls with keys that fit a node and
  values that are not empty (`Step`).  Every state of such a run satisfies `Inv`
  (`reachable_inv`); what follows holds in each of them:

  * eviction only forgets (`setData_forgets`),
  * a write with eviction ends, and fails for lack of space only when there is nothing left to
    evict (`setData_makes_room`); chains that wait in the recycle ring still count as taken,
  * a write that returns `0` can be read back, except when the store was skipped or the block
    store overran (`setData_reads_back`),
  * without eviction, and without an overrun, the table is a finite map (`run_isMap`).
-/
import MysqlProxy.Ht.MhtSet
import MysqlProxy.Ht.LinkTableRun

namespace MysqlProxy

/-! ## New tables -/

theorem length_tailRows (n j : Nat) : (tailRows n j).length = n := by
  induction n generalizing j with
  | zero => rfl
  | succ n ih => rw [tailRows, List.length_cons, ih]

theorem length_calcNodeNumForEachRow {ddwRowNum : Nat} (h : 1 ≤ ddwRowNum) (n : Nat) :
    (calcNodeNumForEachRow ddwRowNum n).length = ddwRowNum := by
  unfold calcNodeNumForEachRow
  dsimp only
  split
  · simpa using Eq.symm ‹_›
  split
  · simpa using Eq.symm ‹_›
  split
  · simpa using Eq.symm ‹_›
  · simp only [List.length_cons, length_tailRows]
    omega

namespace MultiHashTable

/-- A table that `InitFromBuffer` has made in a zeroed buffer, with no empty row, its nodes and
    blocks inside the buffer, and block positions that fit their 48-bit fields. -/
def Created (t : MultiHashTable) : Prop :=
  ∃ ddwBufferSize wMaxKeyLen wRowNum dwIndexRatio ddwBlockSize hashFunc bUseAccessSeq,
    initFromBuffer ddwBufferSize wMaxKeyLen wRowNum dwIndexRatio ddwBlockSize hashFunc
      bUseAccessSeq = .ok t ∧
    (∀ i, i < t.ddwRowNum → 0 < t.auRowsNodeNum i) ∧
    sizeofMhtHeader + t.ddwHashNodeNum * t.ddwHashNodeSize + sizeofLinkTableHead +
      (t.lt.ddwAllBlockCount + 1) * t.lt.ddwBlockSize ≤ ddwBufferSize ∧
    t.lt.ddwAllBlockCount ≤ 2 ^ 48

/-- What a new table looks like. -/
structure Fresh (t : MultiHashTable) (rows : List Nat) : Prop where
  wide : t.WideNodes
  rowNum : 1 ≤ t.ddwRowNum
  length : rows.length = t.ddwRowNum
  nodeNum : t.auRowsNodeNum = fun i => rows.getD i 0
  start : t.auRowsStartNode = fun i => (rows.take i).sum
  num : t.ddwHashNodeNum = rows.sum
  maxRow : t.ddwMaxUsedRow = 0
  iter : t.ddwEraseIterator = 0
  ht : t.ht = fun _ => 0

theorem initFromBuffer_fresh {ddwBufferSize wMaxKeyLen wRowNum dwIndexRatio ddwBlockSize : Nat}
    {hashFunc : List UInt8 → UInt32} {bUseAccessSeq : Bool} {t : MultiHashTable}
    (h : initFromBuffer ddwBufferSize wMaxKeyLen wRowNum dwIndexRatio ddwBlockSize hashFunc
      bUseAccessSeq = .ok t) :
    (∃ rows, Fresh t rows) ∧ 32 ≤ ddwBlockSize ∧ ddwBlockSize ≤ 8192 ∧
      ∃ ddwDataSize ddwBlockCount, LinkTable.init ddwDataSize ddwBlockCount ddwBlockSize = .ok t.lt := by
  unfold initFromBuffer at h
  split at h
  · simp at h
  · rename_i hargs
    dsimp only at h
    split at h
    · simp at h
    · rename_i lt hlt
      obtain rfl := (Except.ok.inj h).symm
      have hrow : 1 ≤ wRowNum := by omega
      refine ⟨⟨_, ⟨?_, hrow, length_calcNodeNumForEachRow hrow _, rfl, rfl, rfl, rfl, rfl, rfl⟩⟩,
        by omega, by omega, _, _, hlt⟩
      show 16 < wMaxKeyLen + 16
      omega

theorem Fresh.rowStart {t : MultiHashTable} {rows : List Nat} (h : Fresh t rows) (i : Nat) :
    t.rowStart i = (rows.take i).sum := by
  induction i with
  | zero => simp [MultiHashTable.rowStart]
  | succ i ih =>
    rw [MultiHashTable.rowStart, ih, h.nodeNum, List.take_add_one, List.sum_append]
    cases hi : rows[i]? with
    | none => simp [List.getD, hi]
    | some n => simp [List.getD, hi]

theorem Fresh.total {t : MultiHashTable} {rows : List Nat} (h : Fresh t rows) :
    t.rowStart t.ddwRowNum = t.ddwHashNodeNum := by
  rw [h.rowStart, h.num, List.take_of_length_le (Nat.le_of_eq h.length)]

section FreshNodes

variable {t : MultiHashTable} {rows : List Nat}

theorem Fresh.read (h : Fresh t rows) (a n : Nat) : t.ht.read a n = List.replicate n 0 := by
  rw [h.ht]
  refine List.eq_replicate_iff.mpr ⟨by simp, fun b hb => ?_⟩
  simp only [Mem.read, List.mem_map] at hb
  obtain ⟨-, -, rfl⟩ := hb
  rfl

theorem Fresh.ltPos (h : Fresh t rows) (p : Nat) : t.nodeLtPos p = 0 := by
  rw [nodeLtPos, h.read]
  rfl

theorem Fresh.keyLen (h : Fresh t rows) (p : Nat) : t.nodeKeyLen p = 0 := by
  rw [nodeKeyLen, h.read]
  rfl

end FreshNodes

/-- A table whose handles are all null is as good as one without handles. -/
theorem valid_zeros {lt : LinkTable} {handles : List Nat} (h : lt.Valid [])
    (h0 : ∀ p ∈ handles, p = 0) : lt.Valid handles := by
  induction handles with
  | nil => exact h
  | cons p handles ih =>
    rw [h0 p List.mem_cons_self]
    exact (ih fun q hq => h0 q (List.mem_cons_of_mem p hq)).cons_zero

theorem created_inv {t : MultiHashTable} (h : Created t) : Inv t := by
  obtain ⟨_, _, _, _, ddwBlockSize, _, _, hinit, hrow, -, hall⟩ := h
  obtain ⟨⟨rows, hf⟩, hs1, hs2, ddwDataSize, ddwBlockCount, hlt⟩ := initFromBuffer_fresh hinit
  have hrows : Rows t :=
    ⟨hf.wide, hf.rowNum, hrow, hf.total, fun i => by rw [hf.rowStart, hf.start]⟩
  have hcount : 0 < ddwBlockCount := by
    rcases Nat.eq_zero_or_pos ddwBlockCount with h0 | h0
    · rw [(LinkTable.init_eq hlt).1, h0] at hall
      exact absurd hall (by decide)
    · exact h0
  refine ⟨hrows, by rw [hf.maxRow]; exact hf.rowNum, ?_, fun p _ => by rw [hf.keyLen]; exact Nat.zero_le _,
    fun p _ hne => absurd (hf.ltPos p) hne, fun p _ _ _ hne => absurd (hf.ltPos p) hne, ?_⟩
  · rw [hf.iter]
    exact Nat.lt_of_le_of_lt (Nat.zero_le _) (slot_lt hrows hf.rowNum 0)
  · refine valid_zeros (LinkTable.init_valid hlt ⟨hs1, hs2⟩ ⟨hcount, hall⟩) fun p hp => ?_
    obtain ⟨i, -, rfl⟩ := mem_slots.mp hp
    exact hf.ltPos i

/-! ## Steps -/

/-- One call.  `SetData` gets a key that fits a node and a value that is not empty, `Get` an
    iterator in range. -/
inductive Step : MultiHashTable → MultiHashTable → Prop where
  | setData {t t' : MultiHashTable} {r : Except MhtError Unit} (now : Nat) (k data : List UInt8)
      (evict : Bool) : t.ValidKey k → data ≠ [] → t.setData now k data evict = some (r, t') →
      Step t t'
  | getData (t : MultiHashTable) (now : Nat) (k : List UInt8) (n : Nat) (upd : Bool) :
      Step t (t.getData now k n upd).table
  | eraseData (t : MultiHashTable) (k : List UInt8) : Step t (t.eraseData k).2
  | eraseBadNode (t : MultiHashTable) (k : List UInt8) : Step t (t.eraseBadNode k).2
  | get (t : MultiHashTable) (it : Nat) : it < t.ddwHashNodeNum → Step t (t.get it).2

/-- The states of all runs. -/
def Reachable (t : MultiHashTable) : Prop :=
  ∃ t0, Created t0 ∧ Relation.ReflTransGen Step t0 t

section Steps

variable {t : MultiHashTable}

/-- What `Search` finds is a node of the table, whatever the key. -/
theorem search_found_lt (h : Inv t) {k : List UInt8} {p : Nat}
    (hp : (t.search k (t.hashfunc k).toNat).1.node = some p) : p < t.ddwHashNodeNum := by
  obtain ⟨i, hi, rfl, -⟩ := (search_spec h.maxRow k (t.hashfunc k).toNat).2.found p hp
  exact slot_lt h.rows (Nat.lt_of_le_of_lt hi h.maxRow) _

theorem getData_inv (h : Inv t) (now : Nat) (k : List UInt8) (n : Nat) (upd : Bool) :
    Inv (t.getData now k n upd).table := by
  have hsame := (search_spec h.maxRow k (t.hashfunc k).toNat).1
  unfold getData
  split
  · exact h
  · simp only [hsame]
    cases hnode : (t.search k (t.hashfunc k).toNat).1.node with
    | none => exact h
    | some p =>
      have hinv : Inv (if upd then t.touch now p else t) := by
        cases upd with
        | false => exact h
        | true => exact (touch_spec h now).1
      dsimp only
      generalize (if upd = true then t.touch now p else t) = t1 at hinv ⊢
      split
      · split
        · exact hinv
        · exact hinv
      · exact hinv

theorem eraseData_inv (h : Inv t) (k : List UInt8) : Inv (t.eraseData k).2 := by
  have hsame := (search_spec h.maxRow k (t.hashfunc k).toNat).1
  unfold eraseData
  split
  · exact h
  · simp only [hsame]
    cases hnode : (t.search k (t.hashfunc k).toNat).1.node with
    | none => exact h
    | some p => exact (eraseNode_spec h (search_found_lt h hnode)).1

theorem eraseBadNode_inv (h : Inv t) (k : List UInt8) : Inv (t.eraseBadNode k).2 := by
  have hsame := (search_spec h.maxRow k (t.hashfunc k).toNat).1
  unfold eraseBadNode
  split
  · exact h
  · simp only [hsame]
    cases hnode : (t.search k (t.hashfunc k).toNat).1.node with
    | none => exact h
    | some p => exact (wipeNode_spec h (search_found_lt h hnode)).1

theorem get_inv (h : Inv t) {it : Nat} (hit : it < t.ddwHashNodeNum) : Inv (t.get it).2 := by
  unfold get
  split
  · exact h
  · split
    · exact (wipeNode_spec h hit).1
    · exact h

/-- Every ending of `SetData` keeps what it promises to keep. -/
theorem SetEnds.setKeeps {t' : MultiHashTable} {now : Nat} {k data : List UInt8} {evict : Bool}
    {r : Except MhtError Unit} (h : Inv t) (hk : t.ValidKey k)
    (hsafe : data = [] → t.NullSafe k evict) (hend : SetEnds t now k data evict r t') :
    SetKeeps t k t' := by
  cases r with
  | error e => exact (setEnds_error h hk hend).1
  | ok u => exact (setEnds_written h hk hsafe hend).1

theorem SetEnds.keeps {t' : MultiHashTable} {now : Nat} {k data : List UInt8} {evict : Bool}
    {r : Except MhtError Unit} (h : Inv t) (hk : t.ValidKey k) (hd : data ≠ [])
    (hend : SetEnds t now k data evict r t') : SetKeeps t k t' :=
  hend.setKeeps h hk fun h0 => absurd h0 hd

theorem setData_keeps {t' : MultiHashTable} {now : Nat} {k data : List UInt8} {evict : Bool}
    {r : Except MhtError Unit} (h : Inv t) (hk : t.ValidKey k) (hd : data ≠ [])
    (heq : t.setData now k data evict = some (r, t')) :
    SetKeeps t k t' ∧ SetEnds t now k data evict r t' := by
  obtain ⟨r1, t1, heq1, hend⟩ := setData_ends h hk data now evict
  obtain ⟨rfl, rfl⟩ : r1 = r ∧ t1 = t' := by rw [heq1] at heq; simpa using heq
  exact ⟨hend.keeps h hk hd, hend⟩

theorem step_inv {t' : MultiHashTable} (h : Inv t) (hs : Step t t') : Inv t' := by
  cases hs with
  | setData now k data evict hk hd heq => exact (setData_keeps h hk hd heq).1.inv
  | getData now k n upd => exact getData_inv h now k n upd
  | eraseData k => exact eraseData_inv h k
  | eraseBadNode k => exact eraseBadNode_inv h k
  | get it hit => exact get_inv h hit

/-- **Every state of every run satisfies the invariant.** -/
theorem reachable_inv (h : Reachable t) : Inv t := by
  obtain ⟨t0, h0, hrun⟩ := h
  exact run_invariant hrun (created_inv h0) step_inv

end Steps

/-! ## A small table -/

/-- Rows of 53 and 23 nodes for keys of up to 239 bytes; a block store with two usable blocks of
    128 bytes. -/
def smallTable : MultiHashTable where
  ddwHashNodeNum := 76
  ddwHashNodeSize := 255
  ddwRowNum := 2
  auRowsNodeNum := fun i => [53, 23].getD i 0
  auRowsStartNode := fun i => ([53, 23].take i).sum
  ddwMaxUsedRow := 0
  ddwEraseIterator := 0
  cUseAccessSeq := false
  ht := fun _ => 0
  lt := { LtState.fourBlocks with
    ddwBlockSize := 128
    blocks := fun _ => ⟨0, 0, List.replicate 120 0⟩ }
  hashfunc := defaultHashFunc

theorem init_smallTable :
    initFromBuffer 2118764 239 2 1 128 defaultHashFunc false = .ok smallTable := by
  have hratio : nodeNumRatio2MemSizeRatio 255 128 1 = 1 := by decide
  have hnum : evaluateHashNodeNum 2118764 255 1 = 82 := by decide +kernel
  have hrows : calcNodeNumForEachRow 2 82 = [53, 23] := by decide +kernel
  have hsize : evaluateHashNodeSize 239 = 255 := rfl
  unfold initFromBuffer
  rw [if_neg (by decide)]
  simp only [hsize, hratio, hnum, hrows]
  rfl

theorem smallTable_created : Created smallTable := by
  refine ⟨_, _, _, _, _, _, _, init_smallTable, ?_, by decide, by decide⟩
  intro i hi
  have : i = 0 ∨ i = 1 := by
    have : i < 2 := hi
    omega
  rcases this with rfl | rfl <;> decide

theorem smallTable_reachable : Reachable smallTable := ⟨_, smallTable_created, .refl⟩

/-- The table that a call of `SetData` with eviction leaves behind. -/
def write (t : MultiHashTable) (k data : List UInt8) : MultiHashTable :=
  match t.setData 0 k data true with
  | some (_, t') => t'
  | none => t

theorem Reachable.write {t : MultiHashTable} {k data : List UInt8} (h : Reachable t)
    (hk : t.ValidKey k) (hd : data ≠ []) : Reachable (t.write k data) := by
  obtain ⟨t0, h0, hrun⟩ := h
  obtain ⟨r, t', heq, -⟩ := setData_ends (reachable_inv ⟨t0, h0, hrun⟩) hk data 0 true
  have hw : t.write k data = t' := by rw [MultiHashTable.write, heq]
  exact ⟨t0, h0, hrun.tail (hw ▸ .setData 0 k data true hk hd heq)⟩

theorem eq_write {t : MultiHashTable} {k data : List UInt8} {r : Except MhtError Unit}
    (h : (t.setData 0 k data true).map Prod.fst = some r) :
    t.setData 0 k data true = some (r, t.write k data) := by
  rw [MultiHashTable.write]
  rcases heq : t.setData 0 k data true with _ | ⟨r', t'⟩
  · rw [heq] at h
    simp at h
  · obtain rfl : r' = r := by rw [heq] at h; simpa using h
    rfl

/-- `smallTable` with both of its blocks taken by key `01`. -/
def fullTable : MultiHashTable := smallTable.write [1] (List.replicate 130 7)

theorem fullTable_reachable : Reachable fullTable :=
  smallTable_reachable.write (by decide) (by decide)

/-! ## Readings -/

/-- A key is read back as `v`, with any buffer that has room for the blocks of `v`. -/
def Reads (t : MultiHashTable) (k v : List UInt8) : Prop :=
  ∀ now n upd, t.lt.blockCount v.length * t.lt.BLOCK_DATA_LEN ≤ n →
    (t.getData now k n upd).result = .ok v

/-- A key is read in both tables alike, whatever the buffer. -/
def ReadsAlike (t t' : MultiHashTable) (k : List UInt8) : Prop :=
  ∀ now n upd, (t'.getData now k n upd).result = (t.getData now k n upd).result

/-- A key is not found. -/
def NotFound (t : MultiHashTable) (k : List UInt8) : Prop :=
  ∀ now n upd, 1 ≤ n → (t.getData now k n upd).result = .ok []

section Readings

variable {t t' : MultiHashTable} {k : List UInt8}

theorem readsAlike_of_node (h : Inv t) (h' : Inv t') (hs : SameShape t t') (hk : t.ValidKey k)
    {p : Nat} (hp : t.Has k p) (hp' : t'.Has k p)
    (hread : ∀ n, t'.readNode p n = t.readNode p n) : ReadsAlike t t' k := by
  intro now n upd
  rcases Nat.lt_or_ge n 1 with hn | hn
  · rw [(getData_small hn now upd).1, (getData_small hn now upd).1]
  · rw [(getData_has h' (hs.validKey.mpr hk) hn hp' now upd).1, (getData_has h hk hn hp now upd).1,
      hread n]

theorem notFound_of_absent (h : Inv t) (hk : t.ValidKey k) (hno : ∀ p, ¬ t.Has k p) :
    NotFound t k :=
  fun now _ upd hn => (getData_absent h hk hn hno now upd).1

/-- The same entry, or no entry, in both tables. -/
theorem SameKey.readsAlike (hs : SameKey t t' k) (h : Inv t) (h' : Inv t')
    (hsh : SameShape t t') (hk : t.ValidKey k) : ReadsAlike t t' k := by
  by_cases hex : ∃ p, t.Has k p
  · obtain ⟨p, hp⟩ := hex
    obtain ⟨hp', hread⟩ := hs.1 p hp
    exact readsAlike_of_node h h' hsh hk hp hp' hread
  · have hno : ∀ p, ¬ t.Has k p := fun p hp => hex ⟨p, hp⟩
    have hno' : ∀ p, ¬ t'.Has k p := fun p hp => hno p (hs.2 p hp)
    intro now n upd
    rcases Nat.lt_or_ge n 1 with hn | hn
    · rw [(getData_small hn now upd).1, (getData_small hn now upd).1]
    · rw [notFound_of_absent h' (hsh.validKey.mpr hk) hno' now n upd hn,
        notFound_of_absent h hk hno now n upd hn]

/-- An entry that has survived reads as before, one that has not is not found. -/
theorem SetKeeps.readsAlike_or_notFound {k' : List UInt8} (hs : SetKeeps t k t') (h : Inv t)
    (hk' : t.ValidKey k') (hne : k' ≠ k) : ReadsAlike t t' k' ∨ NotFound t' k' := by
  by_cases hex : ∃ p, t'.Has k' p
  · obtain ⟨p, hp⟩ := hex
    obtain ⟨hp0, hread⟩ := hs.others k' p hne hp
    exact .inl (readsAlike_of_node h hs.inv hs.shape hk' hp0 hp hread)
  · exact .inr (notFound_of_absent hs.inv (hs.shape.validKey.mpr hk') fun p hp => hex ⟨p, hp⟩)

end Readings

/-! ## Eviction only forgets -/

/-- **Eviction only forgets.**  After a write with eviction every other key reads as before or is
    not found, and if the write failed its own key reads as before. -/
theorem setData_forgets {t : MultiHashTable} {k data : List UInt8} (h : Reachable t)
    (hk : t.ValidKey k) (hd : data ≠ []) (now : Nat) :
    ∃ r t', t.setData now k data true = some (r, t') ∧
      (∀ k', t.ValidKey k' → k' ≠ k → ReadsAlike t t' k' ∨ NotFound t' k') ∧
      ∀ e, r = .error e → ReadsAlike t t' k := by
  have hinv := reachable_inv h
  obtain ⟨r, t', heq, hend⟩ := setData_ends hinv hk data now true
  have hkeeps := hend.keeps hinv hk hd
  refine ⟨r, t', heq, fun k' hk' hne => hkeeps.readsAlike_or_notFound hinv hk' hne, ?_⟩
  rintro e rfl
  obtain ⟨hks, hsame⟩ := setEnds_error hinv hk hend
  exact hsame.readsAlike hinv hks.inv hks.shape hk

/-- In a full table: the entry of `01` is evicted for `02`, in vain, and `02` reads as before. -/
theorem setData_forgets_full :
    (fullTable.getData 0 [1] 240 true).result = .ok (List.replicate 130 7) ∧
    ∃ r t', fullTable.setData 0 [2] [9] true = some (r, t') ∧
      (∀ k', fullTable.ValidKey k' → k' ≠ [2] → ReadsAlike fullTable t' k' ∨ NotFound t' k') ∧
      ∀ e, r = .error e → ReadsAlike fullTable t' [2] :=
  ⟨by decide +kernel, setData_forgets fullTable_reachable (by decide +kernel) (by decide) 0⟩

/-! ## Making room -/

/-- Nothing is left to evict for a write of `k`: no other entry is in the table, or one of them
    has the largest access time, which the scan takes for "nothing found". -/
def NothingToEvict (t : MultiHashTable) (k : List UInt8) : Prop :=
  (∀ k' p, t.Has k' p → k' = k) ∨
    ∃ k' p, k' ≠ k ∧ t.Has k' p ∧ 2 ^ 32 - 1 ≤ t.nodeAccessTime p

/-- The other entries of the table are the candidates of the scan. -/
theorem nothingToEvict_of_scan {t : MultiHashTable} {k : List UInt8} {p : Nat}
    (hp : ∀ k', t.Has k' p → k' = k) (hother : ∀ q, t.Has k q → q = p)
    (h : (∃ q, t.Candidate p q ∧ t.nodeAccessTime q ≥ 2 ^ 32 - 1) ∨ ∀ q, ¬ t.Candidate p q) :
    t.NothingToEvict k := by
  rcases h with ⟨q, ⟨hq, hqp, hne⟩, htime⟩ | hnone
  · exact .inr ⟨t.keyOf q, q, fun hk => hqp (hother q ⟨hq, hne, hk⟩), ⟨hq, hne, rfl⟩, htime⟩
  · refine .inl fun k' q hq => ?_
    by_cases hqp : q = p
    · exact hp k' (hqp ▸ hq)
    · exact absurd ⟨hq.1, hqp, hq.2.1⟩ (hnone q)

/-- The failures of a write with eviction. -/
theorem setEnds_evict_error {t t' : MultiHashTable} {now : Nat} {k data : List UInt8} {e : MhtError}
    (h : Inv t) (hk : t.ValidKey k) (hd : data ≠ [])
    (hmax : t.lt.blockCount data.length ≤ MAX_BLOCK_COUNT)
    (huse : t.lt.blockCount data.length ≤ t.lt.ddwAllBlockCount - 1)
    (hend : SetEnds t now k data true (.error e) t') :
    (∃ iCount iDataLen bs, e = .linkTableSet (.blocksNotEnough iCount iDataLen bs)) ∨
      e = .noMoreNode ∧ t'.NothingToEvict k := by
  cases hend with
  | full hev _ => simp at hev
  | @failed w t1 t2 t3 e hplace hr _ hl =>
    obtain ⟨hinv2, hf2, hp2, hk2, hnode, hold, hnew, -⟩ := rounds_placed h hk hplace hr
    have hkeep3 := (lastRound_error hinv2 hp2 hl)
    cases hl with
    | refused _ hev => simp at hev
    | @failed e lt heq hne =>
      left
      have hbdl : t2.lt.blockCount data.length = t.lt.blockCount data.length := by
        simp only [LinkTable.blockCount, LinkTable.BLOCK_DATA_LEN, hf2.blockSize]
      have hpos := LinkTable.blockCount_pos (t := t.lt) (n := data.length)
        (by have := h.lt.bdl; omega) (List.length_pos_iff.mpr hd)
      rcases LinkTable.setData_cases (t2.nodeLtPos w.pDataNode) hinv2.lt.toGeometry.fits hd with
        ⟨e', lt', heq', hfail⟩ | ⟨p, c, lt', heq', -⟩
      · obtain ⟨rfl, -⟩ : e' = e ∧ lt' = lt := by rw [heq'] at heq; simpa using heq
        cases hfail.failure with
        | tooLarge hgt => omega
        | noSpace => simp at hne
        | noBlocks htiny => rw [hf2.allBlocks] at htiny; omega
        | shortList => exact ⟨_, _, _, rfl⟩
      · rw [heq'] at heq; simp at heq
    | @exhausted lt _ heq _ _ hscan =>
      right
      obtain ⟨hinv3, hf3, hk3⟩ := hkeep3
      refine ⟨rfl, nothingToEvict_of_scan (p := w.pDataNode) ?_ ?_ ?_⟩
      · -- the node of the write holds `k`, or nothing
        intro k' hp
        obtain ⟨hp', -⟩ := hf3.has hp
        cases hn : w.isNew with
        | true => exact absurd (hnew hn).2.1 hp'.2.1
        | false =>
          have hkey := ((hk2 _ (hold hn)).has hf2.toSameShape (hold hn)).1.2.2
          exact hp'.2.2.symm.trans hkey
      · intro q hq
        exact (hnode q (hf2.has (hf3.has hq).1).1).symm
      · rcases attempt_cases hinv2 hp2 hd with ⟨e, lt', heq', -, hinv, -⟩ | ⟨pos, lt', heq', -⟩
        · obtain ⟨-, rfl⟩ : e = .notEnoughSpace ∧ lt' = lt := by rw [heq'] at heq; simpa using heq
          rcases searchAndEraseOldestOne_spec hinv w.pDataNode with ⟨t4, h4, -, -, -, hres⟩ |
            ⟨o, t4, h4, -⟩
          · obtain rfl : t4 = t' := by rw [h4] at hscan; simpa using hscan
            exact hres
          · rw [h4] at hscan; simp at hscan
        · rw [heq'] at heq; simp at heq

/-- **Eviction goes on until there is room or nothing left to evict.**  A write with eviction of a
    value that the table could hold ends with `0`, with the block store's own failure, or with
    `-11`, and then nothing is left to evict. -/
theorem setData_makes_room {t : MultiHashTable} {k data : List UInt8} (h : Reachable t)
    (hk : t.ValidKey k) (hd : data ≠ []) (hmax : t.lt.blockCount data.length ≤ MAX_BLOCK_COUNT)
    (huse : t.lt.blockCount data.length ≤ t.lt.ddwAllBlockCount - 1) (now : Nat) :
    ∃ r t', t.setData now k data true = some (r, t') ∧
      (r = .ok () ∨
        (∃ iCount iDataLen bs, r = .error (.linkTableSet (.blocksNotEnough iCount iDataLen bs))) ∨
        r = .error .noMoreNode ∧ t'.NothingToEvict k) := by
  have hinv := reachable_inv h
  obtain ⟨r, t', heq, hend⟩ := setData_ends hinv hk data now true
  refine ⟨r, t', heq, ?_⟩
  cases r with
  | ok u => exact .inl rfl
  | error e =>
    rcases setEnds_evict_error hinv hk hd hmax huse hend with ⟨i, n, bs, rfl⟩ | ⟨rfl, hno⟩
    · exact .inr (.inl ⟨i, n, bs, rfl⟩)
    · exact .inr (.inr ⟨rfl, hno⟩)

/-- One block for `02` in the full table. -/
theorem setData_makes_room_full : ∃ r t', fullTable.setData 0 [2] [9] true = some (r, t') ∧
    (r = .ok () ∨
      (∃ iCount iDataLen bs, r = .error (.linkTableSet (.blocksNotEnough iCount iDataLen bs))) ∨
      r = .error .noMoreNode ∧ t'.NothingToEvict [2]) :=
  setData_makes_room fullTable_reachable (by decide +kernel) (by decide) (by decide +kernel)
    (by decide +kernel) 0

/-- Two blocks are usable and `02` needs one, but the blocks of the evicted entry wait in the
    recycle ring: the write fails, and so does every further one. -/
theorem full_write_fails : Reachable fullTable ∧ fullTable.ValidKey [2] ∧
    fullTable.lt.blockCount 1 ≤ MAX_BLOCK_COUNT ∧
    fullTable.lt.blockCount 1 ≤ fullTable.lt.ddwAllBlockCount - 1 ∧
    (fullTable.setData 0 [2] [9] true).map Prod.fst = some (.error .noMoreNode) ∧
    ((fullTable.write [2] [9]).setData 0 [2] [9] true).map Prod.fst = some (.error .noMoreNode) :=
  ⟨fullTable_reachable, by decide +kernel, by decide +kernel, by decide +kernel, by decide +kernel,
    by decide +kernel⟩

/-! ## What a successful write leaves behind -/

/-- The case in which `SetData` gives up the store and still returns `0`: there is a node for the
    key and an older one of another key on the search path, the usage is not above 95% (so that
    node has not been erased yet), and the block store refuses the value. -/
def Skips (t : MultiHashTable) (k data : List UInt8) : Prop :=
  (t.search k (t.hashfunc k).toNat).1.oldestNode ≠ none ∧ t.lt.getUsage ≤ 95 ∧
    ((t.search k (t.hashfunc k).toNat).1.node ≠ none ∨
      (t.search k (t.hashfunc k).toNat).1.emptyNode ≠ none) ∧
    t.lt.blockCount data.length ≤ MAX_BLOCK_COUNT ∧
    (t.lt.getEmptyBlock (t.lt.blockCount data.length)).1 = .error .notEnoughSpace

/-- The tables in which the write loop asks the block store: the one in which the node is chosen,
    and each one that an eviction leads to. -/
def Asked (t : MultiHashTable) (k data : List UInt8) (t2 : MultiHashTable) : Prop :=
  ∃ w t1, t.place k true = (.ok w, t1) ∧ Relation.ReflTransGen (Round data w.pDataNode) t1 t2

/-- The condition for a successful write of `data` to be readable: where the store is skipped the
    value is there already, elsewhere the block store does not overrun. -/
def StoreSafe (t : MultiHashTable) (k data : List UInt8) : Prop :=
  (t.Skips k data → t.Reads k data) ∧
    (¬ t.Skips k data → ∀ t2, t.Asked k data t2 → ¬ t2.lt.Overruns (t2.lt.blockCount data.length))

section ReadBack

variable {t t1 t2 t' : MultiHashTable} {k data : List UInt8} {w : Place}

/-- When an oldest node is left over after the choice of the node. -/
theorem place_oldest (h : Inv t) (hplace : t.place k true = (.ok w, t1)) :
    w.pOldestNode ≠ none ↔ (t.search k (t.hashfunc k).toNat).1.oldestNode ≠ none ∧
      t.lt.getUsage ≤ 95 ∧ ((t.search k (t.hashfunc k).toNat).1.node ≠ none ∨
        (t.search k (t.hashfunc k).toNat).1.emptyNode ≠ none) := by
  have hsame := (search_spec h.maxRow k (t.hashfunc k).toNat).1
  unfold place at hplace
  rcases hsearch : t.search k (t.hashfunc k).toNat with ⟨r, t0⟩
  rw [hsearch] at hsame hplace
  obtain rfl : t0 = t := hsame
  simp only at hplace
  rcases eraseOldestOnPath_cases t0 r true with ⟨heq, hkept⟩ | ⟨o, ho, -, hu, heq⟩
  · simp only [heq] at hplace
    have hw : w.pOldestNode = if r.node = none ∧ r.emptyNode = none then none else r.oldestNode := by
      cases hn : r.node with
      | some p =>
        simp only [hn, Prod.mk.injEq, Except.ok.injEq] at hplace
        rw [← hplace.1]
        simp
      | none =>
        cases he : r.emptyNode with
        | some e =>
          simp only [hn, he, Prod.mk.injEq, Except.ok.injEq] at hplace
          rw [← hplace.1]
          simp
        | none =>
          cases ho : r.oldestNode with
          | none => simp [hn, he, ho] at hplace
          | some o =>
            simp only [hn, he, ho, not_true_eq_false, if_false, Prod.mk.injEq, Except.ok.injEq]
              at hplace
            rw [← hplace.1]
            simp
    rw [hw]
    by_cases hr : r.node = none ∧ r.emptyNode = none
    · simp [hr]
    · rw [if_neg hr]
      have hr' : r.node ≠ none ∨ r.emptyNode ≠ none := by
        by_contra hc
        push Not at hc
        exact hr hc
      constructor
      · intro ho
        refine ⟨ho, ?_, hr'⟩
        rcases hkept with hnone | hfalse | hle
        · exact absurd hnone ho
        · simp at hfalse
        · exact hle
      · exact fun h => h.1
  · -- erased already
    have hw : w.pOldestNode = none := by
      simp only [heq] at hplace
      cases hn : r.node with
      | some p =>
        simp only [hn, Prod.mk.injEq, Except.ok.injEq] at hplace
        rw [← hplace.1]
      | none =>
        simp only [hn, Prod.mk.injEq, Except.ok.injEq] at hplace
        rw [← hplace.1]
    rw [hw]
    simp only [ne_eq, not_true_eq_false, false_iff]
    rintro ⟨-, hle, -⟩
    have : t0.lt.getUsage > 95 := hu
    omega

/-- When the block store answers `-100`. -/
theorem setData_refused {lt : LinkTable} (hg : lt.Geometry) (hd : data ≠ []) (pos : Nat) :
    retCode (lt.setData pos data).1 = -100 ↔
      lt.blockCount data.length ≤ MAX_BLOCK_COUNT ∧
        (lt.getEmptyBlock (lt.blockCount data.length)).1 = .error .notEnoughSpace := by
  constructor
  · intro hret
    rcases LinkTable.setData_cases pos hg.fits hd with ⟨e, lt', heq, hfail⟩ | ⟨p, c, lt', heq, -⟩
    · rw [heq] at hret
      obtain rfl := (code_eq_iff e).mp hret
      cases hfail.failure with
      | noSpace h1 h2 => exact ⟨h1, h2⟩
    · rw [heq] at hret
      simp [retCode] at hret
  · rintro ⟨hmax, hget⟩
    unfold LinkTable.setData
    rw [if_neg (Nat.not_lt.mpr hmax)]
    rcases hg : lt.getEmptyBlock (lt.blockCount data.length) with ⟨r, lt'⟩
    rw [hg] at hget
    obtain rfl : r = .error .notEnoughSpace := hget
    rfl

/-- The store is skipped when an oldest node is left over and the block store refuses. -/
theorem skips_iff (h : Inv t) (hk : t.ValidKey k) (hd : data ≠ [])
    (hplace : t.place k true = (.ok w, t1)) :
    t.Skips k data ↔ w.pOldestNode ≠ none ∧
      retCode (t1.lt.setData (t1.nodeLtPos w.pDataNode) data).1 = -100 := by
  have hold := place_oldest h hplace
  have ht1 : w.pOldestNode ≠ none → t1 = t := by
    intro ho
    obtain ⟨o, ho⟩ := Option.ne_none_iff_exists'.mp ho
    have hok := (place_spec h hk true).2.2.2.2.2 w (by rw [hplace])
    rw [hplace] at hok
    exact (hok.oldest o ho).2.2.2
  constructor
  · rintro ⟨h1, h2, h3, h4⟩
    have ho := hold.mpr ⟨h1, h2, h3⟩
    obtain rfl := ht1 ho
    exact ⟨ho, (setData_refused h.lt.toGeometry hd _).mpr h4⟩
  · rintro ⟨ho, hret⟩
    obtain rfl := ht1 ho
    obtain ⟨h1, h2, h3⟩ := hold.mp ho
    exact ⟨h1, h2, h3, (setData_refused h.lt.toGeometry hd _).mp hret⟩

theorem round_rightUnique (data : List UInt8) (p : Nat) : Relator.RightUnique (Round data p) := by
  rintro t t1 t2 ⟨lt, heq, hev⟩ ⟨lt', heq', hev'⟩
  obtain rfl : lt = lt' := by rw [heq] at heq'; simpa using heq'
  rw [hev] at hev'
  simpa using hev'

/-- A round starts where the block store refuses. -/
theorem Round.refused {p : Nat} (hr : Round data p t t') :
    retCode (t.lt.setData (t.nodeLtPos p) data).1 = -100 := by
  obtain ⟨lt, heq, -⟩ := hr
  rw [heq]
  rfl

/-- What a write loop that ends with a failure has not met in its last table. -/
theorem lastRound_evict_error {p : Nat} {oldest : Option Nat} {e : MhtError}
    (hl : LastRound data true p t oldest (.error e, t')) :
    (∀ s, ¬ Round data p t s) ∧ retCode (t.lt.setData (t.nodeLtPos p) data).1 ≠ 0 ∧
      ¬ (oldest ≠ none ∧ retCode (t.lt.setData (t.nodeLtPos p) data).1 = -100) := by
  cases hl with
  | @failed e lt heq hne =>
    have hcode : e.code ≠ -100 := fun h => hne ((code_eq_iff e).mp h)
    have hneg := e.code_neg
    refine ⟨fun s hr => ?_, ?_, ?_⟩
    · have := hr.refused
      rw [heq] at this
      exact hcode this
    · rw [heq]
      exact Int.ne_of_lt hneg
    · rw [heq]
      exact fun h => hcode h.2
  | refused _ hev => simp at hev
  | @exhausted lt _ heq _ hnone hscan =>
    refine ⟨?_, by rw [heq]; simp [retCode, LtError.code], fun h => h.1 hnone⟩
    rintro s ⟨lt', heq', hev⟩
    obtain rfl : lt = lt' := by rw [heq] at heq'; simpa using heq'
    rw [hscan] at hev
    simp at hev

/-- Two tables on the way of the write loop are the same when no round starts in either. -/
theorem rounds_end_unique {p : Nat} (h1 : Relation.ReflTransGen (Round data p) t t1)
    (h2 : Relation.ReflTransGen (Round data p) t t2) (hend1 : ∀ s, ¬ Round data p t1 s)
    (hend2 : ∀ s, ¬ Round data p t2 s) : t1 = t2 := by
  have hstop : ∀ {a b : MultiHashTable}, (∀ s, ¬ Round data p a s) →
      Relation.ReflTransGen (Round data p) a b → a = b := by
    intro a b hend hab
    rcases hab.cases_head with h | ⟨c, hc, -⟩
    · exact h
    · exact absurd hc (hend c)
  rcases Relation.ReflTransGen.total_of_right_unique (round_rightUnique data p) h1 h2 with h | h
  · exact hstop hend1 h
  · exact (hstop hend2 h).symm

theorem Reads.of_alike (h : t.Reads k data) (ha : ReadsAlike t t' k)
    (hsize : t'.lt.ddwBlockSize = t.lt.ddwBlockSize) : t'.Reads k data := by
  intro now n upd hn
  rw [ha now n upd]
  refine h now n upd ?_
  simpa only [LinkTable.blockCount, LinkTable.BLOCK_DATA_LEN, hsize] using hn

/-- A buffer for at least one block. -/
theorem room_pos {lt : LinkTable} (hg : lt.Geometry) (hd : data ≠ []) :
    lt.BLOCK_DATA_LEN ≤ lt.blockCount data.length * lt.BLOCK_DATA_LEN ∧ 1 ≤ lt.BLOCK_DATA_LEN := by
  have hb := hg.bdl
  have hpos := LinkTable.blockCount_pos (t := lt) (n := data.length) (by omega)
    (List.length_pos_iff.mpr hd)
  exact ⟨Nat.le_mul_of_pos_left _ hpos, by omega⟩

theorem StoredAt.reads {p : Nat} (hst : StoredAt t2 t' k data p) (h' : Inv t')
    (hk : t'.ValidKey k) (hd : data ≠ [])
    (hno : ¬ t2.lt.Overruns (t2.lt.blockCount data.length)) : t'.Reads k data := by
  intro now n upd hn
  have hroom := room_pos h'.lt.toGeometry hd
  rw [(getData_has h' hk (by omega) hst.has now upd).1, readNode,
    (hst.holds hno).getData h'.lt.toGeometry, if_neg (by omega), if_neg (by omega)]

theorem StoredAt.not_reads {p : Nat} (hst : StoredAt t2 t' k data p) (h' : Inv t')
    (hk : t'.ValidKey k) (hd : data ≠ [])
    (hov : t2.lt.Overruns (t2.lt.blockCount data.length)) : ¬ t'.Reads k data := by
  intro hreads
  have hroom := room_pos h'.lt.toGeometry hd
  have hread := hreads 0 (t'.lt.blockCount data.length * t'.lt.BLOCK_DATA_LEN) false
    (Nat.le_refl _)
  rw [(getData_has h' hk (by omega) hst.has 0 false).1] at hread
  exact hst.lost hov _ hread

/-- A skipped store returns `0` and changes nothing for its key. -/
theorem setData_skipped (h : Inv t) (hk : t.ValidKey k) (hd : data ≠ []) (hs : t.Skips k data)
    (now : Nat) : ∃ t', t.setData now k data true = some (.ok (), t') ∧ SetKeeps t k t' ∧
      ReadsAlike t t' k := by
  obtain ⟨r, t', heq, hend⟩ := setData_ends h hk data now true
  have hkeeps := hend.keeps h hk hd
  cases r with
  | error e =>
    exfalso
    cases hend with
    | full hev _ => simp at hev
    | @failed w t1 t2 t3 e hplace _ hno hl =>
      obtain ⟨ho, hret⟩ := (skips_iff h hk hd hplace).mp hs
      obtain rfl := hno (.inr ho)
      exact (lastRound_evict_error hl).2.2 ⟨ho, hret⟩
  | ok u =>
    refine ⟨t', heq, hkeeps, ?_⟩
    obtain ⟨-, w, t1, t2, hplace, -, hno, hst | ⟨-, -, -, hsame⟩⟩ := setEnds_ok h hk hd hend
    · obtain ⟨ho, hret⟩ := (skips_iff h hk hd hplace).mp hs
      obtain rfl := hno (.inr ho)
      have := hst.asked
      omega
    · exact hsame.readsAlike h hkeeps.inv hkeeps.shape hk

/-- Elsewhere a write that succeeds has stored its value in one of the tables it asked. -/
theorem setData_stored {evict : Bool} (h : Inv t) (hk : t.ValidKey k) (hd : data ≠ [])
    (hs : evict = true → ¬ t.Skips k data) {now : Nat}
    (heq : t.setData now k data evict = some (.ok (), t')) :
    ∃ w t1 t2, t.place k evict = (.ok w, t1) ∧
      Relation.ReflTransGen (Round data w.pDataNode) t1 t2 ∧ (evict = false → t2 = t1) ∧
      StoredAt t2 t' k data w.pDataNode := by
  obtain ⟨-, hend⟩ := setData_keeps h hk hd heq
  obtain ⟨-, w, t1, t2, hplace, hr, hno, hst | ⟨ho, rfl, hret, -⟩⟩ := setEnds_ok h hk hd hend
  · exact ⟨w, t1, t2, hplace, hr, fun hev => hno (.inl hev), hst⟩
  · obtain rfl := hno (.inr ho)
    exact absurd ((skips_iff h hk hd hplace).mpr ⟨ho, hret⟩) (hs rfl)

theorem not_round_of_taken {p : Nat} (h0 : retCode (t.lt.setData (t.nodeLtPos p) data).1 = 0)
    (s : MultiHashTable) : ¬ Round data p t s := by
  intro hround
  have := hround.refused
  omega

/-- Where the block store of a table it asks takes the value, the write succeeds. -/
theorem setData_taken {evict : Bool} (h : Inv t) (hk : t.ValidKey k) (hd : data ≠ [])
    (hs : evict = true → ¬ t.Skips k data) (hplace : t.place k evict = (.ok w, t1))
    (hr : Relation.ReflTransGen (Round data w.pDataNode) t1 t2) (hfalse : evict = false → t2 = t1)
    (h0 : retCode (t2.lt.setData (t2.nodeLtPos w.pDataNode) data).1 = 0) (now : Nat) :
    ∃ t', t.setData now k data evict = some (.ok (), t') ∧ StoredAt t2 t' k data w.pDataNode := by
  -- it is enough that the call returns `0`, for the loop asks only one table that takes the value
  suffices hok : ∃ t', t.setData now k data evict = some (.ok (), t') by
    obtain ⟨t', heq⟩ := hok
    obtain ⟨w', t1', t2', hplace', hr', hfalse', hst⟩ := setData_stored h hk hd hs heq
    obtain ⟨rfl, rfl⟩ : w = w' ∧ t1 = t1' := by rw [hplace] at hplace'; simpa using hplace'
    cases evict with
    | true =>
      obtain rfl := rounds_end_unique hr hr' (not_round_of_taken h0) (not_round_of_taken hst.asked)
      exact ⟨t', heq, hst⟩
    | false =>
      rw [hfalse' rfl, ← hfalse rfl] at hst
      exact ⟨t', heq, hst⟩
  cases evict with
  | false =>
    obtain rfl := hfalse rfl
    obtain ⟨r, lt, hloop, hiff⟩ := storeLoop_false t2 data w.pDataNode t2.ddwHashNodeNum
      w.pOldestNode
    obtain ⟨pos, rfl⟩ := hiff.mpr h0
    rw [setData, if_neg hk.ne_nil, hplace]
    simp only [hloop]
    exact ⟨_, rfl⟩
  | true =>
    obtain ⟨r, t', heq, hend⟩ := setData_ends h hk data now true
    cases r with
    | ok u => exact ⟨t', heq⟩
    | error e =>
      exfalso
      cases hend with
      | full hev _ => cases hev
      | @failed w' t1' t2' t3 e hplace' hr' hno hl =>
        obtain ⟨rfl, rfl⟩ : w = w' ∧ t1 = t1' := by rw [hplace] at hplace'; simpa using hplace'
        obtain ⟨hend2', hret, -⟩ := lastRound_evict_error hl
        obtain rfl := rounds_end_unique hr hr' (not_round_of_taken h0) hend2'
        exact hret h0

/-- Where the block store of a table it asks overruns, the write succeeds and is lost. -/
theorem setData_overrun (h : Inv t) (hk : t.ValidKey k) (hd : data ≠ []) (hs : ¬ t.Skips k data)
    (hask : t.Asked k data t2) (hov : t2.lt.Overruns (t2.lt.blockCount data.length)) (now : Nat) :
    ∃ t', t.setData now k data true = some (.ok (), t') ∧ ¬ t'.Reads k data := by
  obtain ⟨w, t1, hplace, hr⟩ := hask
  obtain ⟨hinv2, -, hp2, -⟩ := rounds_placed h hk hplace hr
  have h0 : retCode (t2.lt.setData (t2.nodeLtPos w.pDataNode) data).1 = 0 := by
    rcases attempt_cases hinv2 hp2 hd with ⟨e, lt, -, hno, -⟩ | ⟨pos, lt, heq, -⟩
    · exact absurd hov hno
    · rw [heq]
      rfl
  obtain ⟨t', heq, hst⟩ := setData_taken h hk hd (fun _ => hs) hplace hr (fun hev => nomatch hev) h0
    now
  have hkeeps := (setData_keeps h hk hd heq).1
  exact ⟨t', heq, hst.not_reads hkeeps.inv (hkeeps.shape.validKey.mpr hk) hd hov⟩

end ReadBack

/-- **When a successful write can be read back.**  In every reachable state a write with eviction
    that returns `0` is read back if and only if `StoreSafe` holds before it. -/
theorem setData_reads_back {t : MultiHashTable} {k data : List UInt8} (h : Reachable t)
    (hk : t.ValidKey k) (hd : data ≠ []) :
    (∀ now t', t.setData now k data true = some (.ok (), t') → t'.Reads k data) ↔
      t.StoreSafe k data := by
  have hinv := reachable_inv h
  constructor
  · intro hall
    refine ⟨fun hs => ?_, fun hs t2 hask hov => ?_⟩
    · obtain ⟨t', heq, hkeeps, halike⟩ := setData_skipped hinv hk hd hs 0
      refine (hall 0 t' heq).of_alike (fun now n upd => (halike now n upd).symm) ?_
      exact hkeeps.blockSize.symm
    · obtain ⟨t', heq, hnot⟩ := setData_overrun hinv hk hd hs hask hov 0
      exact hnot (hall 0 t' heq)
  · rintro ⟨hskip, hsafe⟩ now t' heq
    by_cases hs : t.Skips k data
    · obtain ⟨t1, heq1, hkeeps, halike⟩ := setData_skipped hinv hk hd hs now
      obtain rfl : t1 = t' := by rw [heq1] at heq; simpa using heq
      exact (hskip hs).of_alike halike hkeeps.blockSize
    · obtain ⟨w, t1, t2, hplace, hr, -, hst⟩ := setData_stored hinv hk hd (fun _ => hs) heq
      have hkeeps := (setData_keeps hinv hk hd heq).1
      exact hst.reads hkeeps.inv (hkeeps.shape.validKey.mpr hk) hd (hsafe hs t2 ⟨w, t1, hplace, hr⟩)


/-- One block for `01` in an empty table: the store is not skipped, and no table that is asked
    overruns, because the first one accepts. -/
theorem setData_reads_back_small : smallTable.StoreSafe [1] [9] ∧
    ∀ now t', smallTable.setData now [1] [9] true = some (.ok (), t') → t'.Reads [1] [9] := by
  have hkey : smallTable.ValidKey [1] := by decide
  have hnot : ¬ smallTable.Skips [1] [9] := by
    rintro ⟨h, -⟩
    exact h (by decide +kernel)
  have hplace : smallTable.place [1] true = (.ok ⟨1, true, 0, none⟩, smallTable) := by
    rfl
  have hsafe : smallTable.StoreSafe [1] [9] := by
    refine ⟨fun hs => absurd hs hnot, ?_⟩
    rintro - t2 ⟨w, t1, hp, hr⟩
    obtain ⟨rfl, rfl⟩ : (⟨1, true, 0, none⟩ : Place) = w ∧ smallTable = t1 := by
      rw [hplace] at hp
      simpa using hp
    rcases hr.cases_head with rfl | ⟨t3, hround, -⟩
    · decide +kernel
    · have haccepts : retCode (smallTable.lt.setData (smallTable.nodeLtPos 1) [9]).1 ≠ -100 := by
        decide +kernel
      exact absurd hround.refused haccepts
  exact ⟨hsafe, (setData_reads_back smallTable_reachable hkey (by decide)).mpr hsafe⟩

/-- **The defect.**  Keys `01` and `36` share a node of row `0`.  With all blocks taken by `01` the
    write of `36` erases `01`, forgets to try again, and returns `0`; `36` is not found. -/
theorem skipped_write_lost : Reachable fullTable ∧ fullTable.ValidKey [54] ∧
    ∃ t', fullTable.setData 0 [54] [9] true = some (.ok (), t') ∧
      (t'.getData 0 [54] 240 true).result = .ok [] ∧ ¬ t'.Reads [54] [9] := by
  have hset : (fullTable.setData 0 [54] [9] true).map Prod.fst = some (.ok ()) := by decide +kernel
  have hread : ((fullTable.write [54] [9]).getData 0 [54] 240 true).result = .ok [] := by
    decide +kernel
  have hroom : (fullTable.write [54] [9]).lt.blockCount [9].length *
      (fullTable.write [54] [9]).lt.BLOCK_DATA_LEN ≤ 240 := by decide +kernel
  have heq := eq_write hset
  generalize fullTable.write [54] [9] = t' at hread hroom heq
  refine ⟨fullTable_reachable, by decide +kernel, t', heq, hread, fun hreads => ?_⟩
  rw [hreads 0 240 true hroom] at hread
  simp at hread

end MultiHashTable

end MysqlProxy
