/-
  Reading the shared cache (`ReadCache` in `storage.cc`).

  A reader asks `GetData` with a buffer of 10 MB and, if that answers `-22`, once more with one of
  100 MB.  `Get`, the reader of the iterators, has the larger one only and takes a `-22` for a
  damaged node.

  The limits are not those of the writer.  `SetData` takes a value of up to `MAX_BLOCK_COUNT`
  blocks, which are 209 MB with the largest blocks, and a reader's buffer must have room for whole
  blocks.  So a value that `SetData` has taken can be read back exactly when its blocks fit 100 MB
  (`setData_cached_iff`).

  Modelling choices.
  * The two buffers belong to the thread and are allocated once; whether a buffer is there or
    `malloc` gives it is an argument.
  * `time(NULL)` is asked in each call of `GetData`, so there are two of it.
-/
import MysqlProxy.Ht.MhtIter

namespace MysqlProxy

def SMALL_BUFFER_SIZE : Nat := 10 * 1024 * 1024
def HUGE_BUFFER_SIZE : Nat := HASH_MAX_DATA_LENGTH

/-- The failures of `ReadCache`. -/
inductive ReadCacheError where
  | outOfMemory
  /-- `GetData` failed; its code is passed on. -/
  | readFailed (e : MhtError)
  deriving DecidableEq, Repr

/-- The value `ReadCache` returns. -/
def ReadCacheError.code : ReadCacheError → Int
  | .outOfMemory => -1
  | .readFailed e => e.code

/-- The text it leaves in `errmsg`. -/
def ReadCacheError.errmsg : ReadCacheError → String
  | .outOfMemory => "out of memory"
  | .readFailed e => "HashTable read failed: " ++ e.errmsg

/-- What `ReadCache` returns: the bytes, the access time stored through `access_time`, the table. -/
structure ReadCacheOutcome where
  result : Except ReadCacheError (List UInt8)
  access_time : Option Nat
  table : MultiHashTable

namespace MultiHashTable

/-- `ReadCache`. -/
def readCache (t : MultiHashTable) (now now' : Nat) (k : List UInt8)
    (small_buffer huge_buffer : Bool) : ReadCacheOutcome :=
  if ¬ small_buffer then ⟨.error .outOfMemory, none, t⟩
  else
    let g := t.getData now k SMALL_BUFFER_SIZE true
    match g.result with
    | .ok data => ⟨.ok data, g.lastAccessTime, g.table⟩
    | .error e =>
      -- small buffer not large enough, use huge buffer
      if e.code = -22 then
        if ¬ huge_buffer then ⟨.error .outOfMemory, g.lastAccessTime, g.table⟩
        else
          let g' := g.table.getData now' k HUGE_BUFFER_SIZE true
          match g'.result with
          | .ok data => ⟨.ok data, g'.lastAccessTime, g'.table⟩
          | .error e => ⟨.error (.readFailed e), g'.lastAccessTime, g'.table⟩
      else ⟨.error (.readFailed e), g.lastAccessTime, g.table⟩

/-- The two attempts, by what they read. -/
def twoReads (small huge : Except MhtError (List UInt8)) : Except ReadCacheError (List UInt8) :=
  match small with
  | .ok data => .ok data
  | .error e =>
    if e.code = -22 then
      match huge with
      | .ok data => .ok data
      | .error e => .error (.readFailed e)
    else .error (.readFailed e)

/-- The readers give `v` for key `k`: `ReadCache` with both buffers, and `Get` at the entry of the
    key, which stays in place. -/
def CacheReads (t : MultiHashTable) (k v : List UInt8) : Prop :=
  (∀ now now', (t.readCache now now' k true true).result = .ok v) ∧
    ∀ it, t.Has k it → ∃ m, t.get it = (.ok m, t) ∧ m.key = k ∧ m.data = v

section Readers

variable {t t' : MultiHashTable} {k v : List UInt8} {p : Nat}

/-- The first attempt changes the access time only. -/
theorem readCache_has (h : Inv t) (hk : t.ValidKey k) (hp : t.Has k p) (now now' : Nat) :
    (t.readCache now now' k true true).result =
      twoReads (t.readNode p SMALL_BUFFER_SIZE) (t.readNode p HUGE_BUFFER_SIZE) := by
  obtain ⟨hres, htab⟩ := getData_has h hk (show 1 ≤ SMALL_BUFFER_SIZE by decide) hp now true
  rw [if_pos rfl] at htab
  obtain ⟨hinv, hf, hkeep⟩ := touch_spec (p := p) h now
  obtain ⟨hp', hread⟩ := (hkeep p hp.1).has hf.toSameShape hp
  have hsecond := (getData_has hinv (hf.toSameShape.validKey.mpr hk)
    (show 1 ≤ HUGE_BUFFER_SIZE by decide) hp' now' true).1
  rw [hread] at hsecond
  rw [readCache, if_neg (by decide)]
  dsimp only
  rw [hres, htab]
  unfold twoReads
  cases t.readNode p SMALL_BUFFER_SIZE with
  | ok d => rfl
  | error e =>
    dsimp only
    by_cases he : e.code = -22
    · rw [if_pos he, if_pos he, if_neg (by decide), hsecond]
      cases t.readNode p HUGE_BUFFER_SIZE with
      | ok d => rfl
      | error e => rfl
    · rw [if_neg he, if_neg he]

theorem readCache_absent (h : Inv t) (hk : t.ValidKey k) (hno : ∀ p, ¬ t.Has k p) (now now' : Nat) :
    (t.readCache now now' k true true).result = .ok [] := by
  have hres := (getData_absent h hk (show 1 ≤ SMALL_BUFFER_SIZE by decide) hno now true).1
  rw [readCache, if_neg (by decide)]
  dsimp only
  rw [hres]

theorem get_readNode (hp : t.Has k p) :
    (∃ m, t.get p = (.ok m, t) ∧ m.key = k ∧ m.data = v) ↔
      t.readNode p HASH_MAX_DATA_LENGTH = .ok v := by
  constructor
  · rintro ⟨m, hget, -, rfl⟩
    rw [get] at hget
    rw [readNode]
    cases hg : t.lt.getData (t.nodeLtPos p) HASH_MAX_DATA_LENGTH with
    | ok d =>
      rw [hg] at hget
      cases hget
      rfl
    | error e =>
      rw [hg] at hget
      dsimp only at hget
      split at hget
      · cases hget
      · cases hget
  · intro hread
    exact ⟨_, MhtState.get_of_readNode hread, hp.2.2, rfl⟩

theorem cacheReads_has (h : Inv t) (hk : t.ValidKey k) (hp : t.Has k p) :
    t.CacheReads k v ↔
      twoReads (t.readNode p SMALL_BUFFER_SIZE) (t.readNode p HUGE_BUFFER_SIZE) = .ok v ∧
        t.readNode p HASH_MAX_DATA_LENGTH = .ok v := by
  refine and_congr ?_ ?_
  · simp only [readCache_has h hk hp, forall_const]
  · constructor
    · exact fun hall => (get_readNode hp).mp (hall p hp)
    · intro hread it hit
      rw [← h.has_unique hp hit]
      exact (get_readNode hp).mpr hread

theorem cacheReads_absent (h : Inv t) (hk : t.ValidKey k) (hno : ∀ p, ¬ t.Has k p) :
    t.CacheReads k [] :=
  ⟨readCache_absent h hk hno, fun p hp => absurd hp (hno p)⟩

/-- What reads the same is read the same by both readers. -/
theorem SameKey.cacheReads (hs : SameKey t t' k) (h : Inv t) (h' : Inv t') (hsh : SameShape t t')
    (hk : t.ValidKey k) : t'.CacheReads k v ↔ t.CacheReads k v := by
  have hk' := hsh.validKey.mpr hk
  by_cases hex : ∃ p, t.Has k p
  · obtain ⟨p, hp⟩ := hex
    obtain ⟨hp', hread⟩ := hs.1 p hp
    rw [cacheReads_has h' hk' hp', cacheReads_has h hk hp, hread, hread, hread]
  · have hno : ∀ p, ¬ t.Has k p := fun p hp => hex ⟨p, hp⟩
    have hno' : ∀ p, ¬ t'.Has k p := fun p hp => hno p (hs.2 p hp)
    refine and_congr ?_ ⟨fun _ p hp => absurd hp (hno p), fun _ p hp => absurd hp (hno' p)⟩
    simp only [readCache_absent h hk hno, readCache_absent h' hk' hno']

/-- The blocks of a value of `n` bytes fit the larger buffer. -/
def FitsHuge (t : MultiHashTable) (n : Nat) : Prop :=
  t.lt.blockCount n * t.lt.BLOCK_DATA_LEN ≤ HUGE_BUFFER_SIZE

/-- **A stored value is read** exactly when the block store has not overrun and its blocks fit. -/
theorem StoredAt.cacheReads {t2 : MultiHashTable} {data : List UInt8}
    (hst : StoredAt t2 t' k data p) (h' : Inv t') (hk : t'.ValidKey k) :
    t'.CacheReads k data ↔
      ¬ t2.lt.Overruns (t2.lt.blockCount data.length) ∧ t'.FitsHuge data.length := by
  have hbdl := h'.lt.toGeometry.bdl
  have hhuge : HUGE_BUFFER_SIZE = 104857600 := rfl
  have hsmall : SMALL_BUFFER_SIZE = 10485760 := rfl
  -- with a chain that holds the value, a buffer of `n` bytes is enough for the blocks or not
  have hread : ¬ t2.lt.Overruns (t2.lt.blockCount data.length) → ∀ n, t'.lt.BLOCK_DATA_LEN ≤ n →
      t'.readNode p n = if n < t'.lt.blockCount data.length * t'.lt.BLOCK_DATA_LEN then
        .error (.linkTableGet .notEnoughSpaceForData) else .ok data := by
    intro hno n hn
    rw [readNode, (hst.holds hno).getData h'.lt.toGeometry, if_neg (by omega)]
    by_cases hroom : n < t'.lt.blockCount data.length * t'.lt.BLOCK_DATA_LEN
    · rw [if_pos hroom, if_pos hroom]
    · rw [if_neg hroom, if_neg hroom]
  rw [cacheReads_has h' hk hst.has, FitsHuge]
  constructor
  · rintro ⟨-, hget⟩
    have hno : ¬ t2.lt.Overruns (t2.lt.blockCount data.length) := fun hov => hst.lost hov _ hget
    refine ⟨hno, ?_⟩
    by_contra hfit
    have hlarge := hread hno HUGE_BUFFER_SIZE (by omega)
    rw [if_pos (by omega)] at hlarge
    cases hlarge.symm.trans hget
  · rintro ⟨hno, hfit⟩
    have hlarge := (hread hno HUGE_BUFFER_SIZE (by omega)).trans (if_neg (by omega))
    refine ⟨?_, hlarge⟩
    rw [hread hno SMALL_BUFFER_SIZE (by omega), hlarge]
    by_cases hroom : SMALL_BUFFER_SIZE < t'.lt.blockCount data.length * t'.lt.BLOCK_DATA_LEN
    · rw [if_pos hroom]
      rfl
    · rw [if_neg hroom]
      rfl

end Readers

/-! ## What a write leaves for the readers -/

/-- The table `t2`, in which the write loop asks the block store, is one that takes the value. -/
def TakenIn (t : MultiHashTable) (k data : List UInt8) (evict : Bool) (t2 : MultiHashTable) : Prop :=
  ∃ w t1, t.place k evict = (.ok w, t1) ∧ Relation.ReflTransGen (Round data w.pDataNode) t1 t2 ∧
    (evict = false → t2 = t1) ∧ retCode (t2.lt.setData (t2.nodeLtPos w.pDataNode) data).1 = 0

/-- The condition for a successful write to be readable.  A store that is skipped must find the
    value there already; elsewhere the table that takes the value does not overrun, and the blocks
    fit 100 MB. -/
def CacheSafe (t : MultiHashTable) (k data : List UInt8) (evict : Bool) : Prop :=
  (evict = true ∧ t.Skips k data → t.CacheReads k data) ∧
    (¬ (evict = true ∧ t.Skips k data) → ∀ t2, t.TakenIn k data evict t2 →
      ¬ t2.lt.Overruns (t2.lt.blockCount data.length) ∧ t.FitsHuge data.length)

/-- The same for an empty value: the block store hands out no block for it, and if it refuses
    because the free count is negative as an `int`, the key is read as empty already. -/
def NullCacheSafe (t : MultiHashTable) (k : List UInt8) (evict : Bool) : Prop :=
  t.NullSafe k evict ∧ (int32 t.lt.ddwFreeBlockCount < 0 → t.CacheReads k [])

section Writes

variable {t t' : MultiHashTable} {k data : List UInt8} {evict : Bool}

theorem FitsHuge.congr (h : t'.lt.ddwBlockSize = t.lt.ddwBlockSize) (n : Nat) :
    t'.FitsHuge n ↔ t.FitsHuge n := by
  simp only [FitsHuge, LinkTable.blockCount, LinkTable.BLOCK_DATA_LEN, h]

/-- A skipped store leaves the readings of its key. -/
theorem setData_skipped_cacheReads (h : Inv t) (hk : t.ValidKey k) (hd : data ≠ [])
    (hs : t.Skips k data) (now : Nat) : ∃ t', t.setData now k data true = some (.ok (), t') ∧
      (t'.CacheReads k data ↔ t.CacheReads k data) := by
  obtain ⟨t', heq, -⟩ := setData_skipped h hk hd hs now
  obtain ⟨hkeeps, hend⟩ := setData_keeps h hk hd heq
  obtain ⟨-, w, t1, t2, hplace, -, hno, hst | ⟨-, -, -, hsame⟩⟩ := setEnds_ok h hk hd hend
  · obtain ⟨ho, hret⟩ := (skips_iff h hk hd hplace).mp hs
    obtain rfl := hno (.inr ho)
    have := hst.asked
    omega
  · exact ⟨t', heq, hsame.cacheReads h hkeeps.inv hkeeps.shape hk⟩

/-- A value that is not empty. -/
theorem setData_cacheReads_iff (h : Inv t) (hk : t.ValidKey k) (hd : data ≠ []) :
    (∀ now t', t.setData now k data evict = some (.ok (), t') → t'.CacheReads k data) ↔
      t.CacheSafe k data evict := by
  by_cases hskip : evict = true ∧ t.Skips k data
  · obtain ⟨rfl, hs⟩ := hskip
    constructor
    · intro hall
      refine ⟨fun _ => ?_, fun hno => absurd ⟨rfl, hs⟩ hno⟩
      obtain ⟨t', heq, hiff⟩ := setData_skipped_cacheReads h hk hd hs 0
      exact hiff.mp (hall 0 t' heq)
    · rintro ⟨hread, -⟩ now t' heq
      obtain ⟨t1, heq1, hiff⟩ := setData_skipped_cacheReads h hk hd hs now
      obtain rfl : t1 = t' := by rw [heq1] at heq; simpa using heq
      exact hiff.mpr (hread ⟨rfl, hs⟩)
  · have hs : evict = true → ¬ t.Skips k data := fun he hs => hskip ⟨he, hs⟩
    -- what a write in `t2` leaves
    have hstored : ∀ {now t' t2 p}, t.setData now k data evict = some (.ok (), t') →
        StoredAt t2 t' k data p → (t'.CacheReads k data ↔
          ¬ t2.lt.Overruns (t2.lt.blockCount data.length) ∧ t.FitsHuge data.length) := by
      intro now t' t2 p heq hst
      have hkeeps := (setData_keeps h hk hd heq).1
      rw [hst.cacheReads hkeeps.inv (hkeeps.shape.validKey.mpr hk), FitsHuge.congr hkeeps.blockSize]
    constructor
    · intro hall
      refine ⟨fun he => absurd he hskip, fun _ t2 ⟨w, t1, hplace, hr, hfalse, h0⟩ => ?_⟩
      obtain ⟨t', heq, hst⟩ := setData_taken h hk hd hs hplace hr hfalse h0 0
      exact (hstored heq hst).mp (hall 0 t' heq)
    · rintro ⟨-, hsafe⟩ now t' heq
      obtain ⟨w, t1, t2, hplace, hr, hfalse, hst⟩ := setData_stored h hk hd hs heq
      exact (hstored heq hst).mpr (hsafe hskip t2 ⟨w, t1, hplace, hr, hfalse, hst.asked⟩)

theorem setData_null_cacheReads (h : Inv t) (hk : t.ValidKey k) (hsafe : t.NullCacheSafe k evict)
    (now : Nat) (heq : t.setData now k [] evict = some (.ok (), t')) : t'.CacheReads k [] := by
  obtain ⟨r, t1, heq1, hend⟩ := setData_ends h hk [] now evict
  obtain ⟨rfl, rfl⟩ : r = .ok () ∧ t1 = t' := by rw [heq1] at heq; simpa using heq
  obtain ⟨hkeeps, w, t2, t3, hplace, -, hno, ⟨hne, -⟩ | ⟨-, hnone⟩ | ⟨ho, rfl, hret, hsame⟩⟩ :=
    setEnds_written h hk (fun _ => hsafe.1) hend
  · exact absurd rfl hne
  · exact cacheReads_absent hkeeps.inv (hkeeps.shape.validKey.mpr hk) hnone
  · -- the store was skipped: the first table refuses, which for no blocks needs a negative count
    obtain rfl := hno (.inr ho)
    obtain ⟨o, ho⟩ := Option.ne_none_iff_exists'.mp ho
    have hok := (place_spec h hk true).2.2.2.2.2 w (by rw [hplace])
    rw [hplace] at hok
    obtain rfl := (hok.oldest o ho).2.2.2
    refine (hsame.cacheReads h hkeeps.inv hkeeps.shape hk).mpr (hsafe.2 ?_)
    by_contra hneg
    rw [LinkTable.setData_eq, LinkTable.setData_nil h.lt.toGeometry.fits.bdl_pos,
      if_neg hneg] at hret
    simp [retCode] at hret

end Writes

/-- **What can be stored can be read**, exactly when the write is `CacheSafe`: in every state of
    every run, with and without eviction.  For an empty value the condition is enough. -/
theorem setData_cached_iff {t : MultiHashTable} {s : MhtState} (hc : Created t)
    (hrun : Relation.ReflTransGen (MhtState.Step MhtOp.Tame) ⟨t, []⟩ s) {k : List UInt8}
    (hk : s.table.ValidKey k) (data : List UInt8) (evict : Bool) :
    (data ≠ [] →
      ((∀ now t', s.table.setData now k data evict = some (.ok (), t') → t'.CacheReads k data) ↔
        s.table.CacheSafe k data evict)) ∧
    (data = [] → s.table.NullCacheSafe k evict →
      ∀ now t', s.table.setData now k data evict = some (.ok (), t') → t'.CacheReads k data) := by
  have hinv := (MhtState.run_logged hc hrun).inv
  refine ⟨fun hd => setData_cacheReads_iff hinv hk hd, ?_⟩
  rintro rfl hsafe now t' heq
  exact setData_null_cacheReads hinv hk hsafe now heq

/-- One byte for `01` in a new table. -/
theorem setData_cached_small : ∃ t', smallTable.setData 0 [1] [9] false = some (.ok (), t') ∧
    t'.CacheReads [1] [9] := by
  have hkey : smallTable.ValidKey [1] := by decide
  have hset : (smallTable.setData 0 [1] [9] false).map Prod.fst = some (.ok ()) := by decide +kernel
  obtain ⟨⟨r, t'⟩, heq, rfl⟩ := Option.map_eq_some_iff.mp hset
  refine ⟨t', heq, ((setData_cached_iff smallTable_created .refl hkey [9] false).1 (by decide)).mpr
    ⟨fun h => absurd h.1 (by decide), ?_⟩ 0 t' heq⟩
  rintro - t2 ⟨w, t1, hplace, -, hfalse, -⟩
  have hplace' : smallTable.place [1] false = (.ok ⟨1, true, 0, none⟩, smallTable) := by rfl
  obtain rfl := hfalse rfl
  obtain rfl : smallTable = t2 := by
    rw [hplace'] at hplace
    exact (Prod.mk.inj hplace).2
  exact ⟨by decide +kernel, show smallTable.lt.blockCount 1 * smallTable.lt.BLOCK_DATA_LEN ≤
    HUGE_BUFFER_SIZE by decide⟩

/-- **The defect.**  `SetData` takes a value of 100 MB; its 12813 blocks have 4.5 kB more than the
    larger buffer.  `ReadCache` fails, and `Get` wipes the node. -/
theorem huge_value_not_cached : Created MhtState.hugeTable ∧ ∃ t',
    MhtState.hugeTable.setData 0 [1] MhtState.hugeValue false = some (.ok (), t') ∧
    ¬ t'.CacheReads [1] MhtState.hugeValue ∧
    (∀ now now', (t'.readCache now now' [1] true true).result =
      .error (.readFailed (.linkTableGet .notEnoughSpaceForData))) ∧
    ∃ it, t'.Has [1] it ∧ t'.get it = (.error (.wiped .notEnoughSpaceForData), t'.wipeNode it) := by
  obtain ⟨s, -, hset, hlog, -, hkey, p, hp, hsmall, -⟩ := MhtState.hugeTable_entry
  have hcache : ∀ now now', (s.table.readCache now now' [1] true true).result =
      .error (.readFailed (.linkTableGet .notEnoughSpaceForData)) := by
    intro now now'
    rw [readCache_has hlog.inv hkey hp, hsmall SMALL_BUFFER_SIZE (by decide) (by decide),
      hsmall HUGE_BUFFER_SIZE (by decide) (by decide)]
    rfl
  refine ⟨MhtState.hugeTable_created, s.table, hset, fun hread => ?_, hcache, p, hp,
    MhtState.get_wipes (hsmall HASH_MAX_DATA_LENGTH (by decide) (by decide))⟩
  have hok := hread.1 0 0
  rw [hcache] at hok
  cases hok

end MultiHashTable

end MysqlProxy
