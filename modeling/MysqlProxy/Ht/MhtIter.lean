/-
  Iterating over a `MultiHashTable`.

  `Begin()` is `Next(End())`, and `Next` goes to the next non-empty node below the end of row
  `ddwMaxUsedRow`.  Since every entry lies in a used row (`Inv.placed`), the iterators that are met
  until `End()` comes back are all entries, each once (`visits_nodes`).

  At each of them `Get` has a buffer of `HASH_MAX_DATA_LENGTH` bytes.  Where all values fit it
  (`Fitting`), the keys that `Get` reports are the keys that `GetData` finds, in every state of
  every run (`run_indexed`).  A longer value can be stored and read with `GetData`, but `Get` takes
  its node for a damaged one and wipes it (`huge_value_wiped`).
-/
import MysqlProxy.Ht.MhtLog

namespace MysqlProxy

namespace MultiHashTable

/-! ## The iterators -/

/-- Following `Next` from `it` until `End()` meets exactly the iterators `l`. -/
def Visits (t : MultiHashTable) (it : Option Nat) : List Nat → Prop
  | [] => t.next it = none
  | p :: l => t.next it = some p ∧ Visits t (some p) l

/-- The end of the nodes that `Next` looks at. -/
def ddwMaxUsedNode (t : MultiHashTable) : Nat :=
  if t.ddwMaxUsedRow < t.ddwRowNum then
    min (t.auRowsStartNode t.ddwMaxUsedRow + t.auRowsNodeNum t.ddwMaxUsedRow) t.ddwHashNodeNum
  else t.ddwHashNodeNum

/-- The node after an iterator. -/
def after : Option Nat → Nat
  | none => 0
  | some it => it + 1

section Iterators

variable {t : MultiHashTable}

theorem next_eq (it : Option Nat) :
    t.next it = t.nextLoop (t.ddwMaxUsedNode - after it) (after it) := by
  cases it <;> rfl

/-- What is met from `it` on is met from every iterator with the same successor. -/
theorem Visits.of_next {it it' : Option Nat} {l : List Nat} (h : t.Visits it l)
    (heq : t.next it' = t.next it) : t.Visits it' l := by
  cases l with
  | nil => exact heq.trans h
  | cons p l => exact ⟨heq.trans h.1, h.2⟩

/-- The iterators met in the last `n` nodes are the non-empty ones of them. -/
theorem visits_last {n : Nat} : ∀ {it : Option Nat}, t.ddwMaxUsedNode - after it = n →
    t.Visits it ((List.range' (after it) n).filter fun p => !t.isHnodeEmpty p) := by
  induction n with
  | zero =>
    intro it hn
    show t.next it = none
    rw [next_eq, hn, nextLoop]
  | succ n ih =>
    intro it hn
    have hrest := @ih (some (after it)) (show t.ddwMaxUsedNode - (after it + 1) = n by omega)
    rw [List.range'_succ]
    by_cases hempty : t.isHnodeEmpty (after it) = true
    · rw [List.filter_cons_of_neg (by simpa using hempty)]
      refine hrest.of_next ?_
      have hn' : t.ddwMaxUsedNode - (after it + 1) = n := by omega
      rw [next_eq, next_eq, hn, nextLoop, if_pos hempty]
      show _ = t.nextLoop (t.ddwMaxUsedNode - (after it + 1)) (after it + 1)
      rw [hn']
    · rw [List.filter_cons_of_pos (by simpa using hempty)]
      refine ⟨?_, hrest⟩
      rw [next_eq, hn, nextLoop, if_neg hempty]

/-- The nodes with an entry, in order. -/
def entries (t : MultiHashTable) : List Nat :=
  (List.range t.ddwHashNodeNum).filter fun p => !t.isHnodeEmpty p

theorem mem_entries {p : Nat} : p ∈ t.entries ↔ p < t.ddwHashNodeNum ∧ t.nodeLtPos p ≠ 0 := by
  simp [entries, isHnodeEmpty]

theorem entries_nodup : t.entries.Nodup := List.nodup_range.filter _

/-- Every entry lies in a used row. -/
theorem Inv.entry_lt (h : Inv t) {p : Nat} (hp : p < t.ddwHashNodeNum) (hne : t.nodeLtPos p ≠ 0) :
    p < t.ddwMaxUsedNode := by
  obtain ⟨-, i, hi, hslot⟩ := h.placed p hp hne
  have hrow := (slot_row h.rows (Nat.lt_of_le_of_lt hi h.maxRow) (t.hashfunc (t.keyOf p)).toNat).2
  have hmono := t.rowStart_mono (show i + 1 ≤ t.ddwMaxUsedRow + 1 by omega)
  rw [← hslot] at hrow
  rw [ddwMaxUsedNode, if_pos h.maxRow, h.rows.starts]
  have hend : t.rowStart (t.ddwMaxUsedRow + 1) =
      t.rowStart t.ddwMaxUsedRow + t.auRowsNodeNum t.ddwMaxUsedRow := rfl
  omega

/-- **The iterators from `Begin()` to `End()` are all entries, each once.** -/
theorem visits_entries (h : Inv t) : t.Visits none t.entries := by
  have hle : t.ddwMaxUsedNode ≤ t.ddwHashNodeNum := by
    rw [ddwMaxUsedNode]
    split <;> omega
  have hsplit : t.entries =
      (List.range' 0 t.ddwMaxUsedNode).filter fun p => !t.isHnodeEmpty p := by
    have hrange : List.range t.ddwHashNodeNum = List.range' 0 t.ddwMaxUsedNode ++
        List.range' t.ddwMaxUsedNode (t.ddwHashNodeNum - t.ddwMaxUsedNode) := by
      rw [List.range_eq_range']
      have happ := List.range'_append_1 (s := 0) (m := t.ddwMaxUsedNode)
        (n := t.ddwHashNodeNum - t.ddwMaxUsedNode)
      rw [Nat.zero_add] at happ
      rw [happ]
      congr 1
      omega
    have hrest : (List.range' t.ddwMaxUsedNode (t.ddwHashNodeNum - t.ddwMaxUsedNode)).filter
        (fun p => !t.isHnodeEmpty p) = [] := by
      rw [List.filter_eq_nil_iff]
      intro p hp
      rw [List.mem_range'_1] at hp
      by_cases hne : t.nodeLtPos p = 0
      · simp [isHnodeEmpty, hne]
      · have := h.entry_lt (show p < t.ddwHashNodeNum by omega) hne
        omega
    rw [entries, hrange, List.filter_append, hrest, List.append_nil]
  rw [hsplit]
  exact @visits_last _ _ none (Nat.sub_zero _)

/-- What is met is determined. -/
theorem Visits.unique {it : Option Nat} {l l' : List Nat} (h : t.Visits it l) (h' : t.Visits it l') :
    l = l' := by
  induction l generalizing it l' with
  | nil =>
    cases l' with
    | nil => rfl
    | cons p l' =>
      have h0 : t.next it = none := h
      rw [h'.1] at h0
      simp at h0
  | cons p l ih =>
    cases l' with
    | nil =>
      have h0 : t.next it = none := h'
      rw [h.1] at h0
      simp at h0
    | cons q l' =>
      obtain rfl : p = q := Option.some.inj (h.1.symm.trans h'.1)
      rw [ih h.2 h'.2]

end Iterators

/-- `GetData` finds `k`: with some buffer it returns a value. -/
def Finds (t : MultiHashTable) (k : List UInt8) : Prop :=
  ∃ now n upd d, d ≠ [] ∧ (t.getData now k n upd).result = .ok d

/-- The index and its iterators. -/
structure Indexed (t : MultiHashTable) : Prop where
  /-- An entry lies where its key belongs, in a used row, with the hash of its key. -/
  placed : ∀ p, p < t.ddwHashNodeNum → t.isHnodeEmpty p = false →
    t.nodeHashKey p = (t.hashfunc (t.keyOf p)).toNat ∧
      ∃ i, i ≤ t.ddwMaxUsedRow ∧ i < t.ddwRowNum ∧
        p = t.auRowsStartNode i + (t.hashfunc (t.keyOf p)).toNat % t.auRowsNodeNum i
  /-- No two entries have the same key. -/
  unique : ∀ p q, p < t.ddwHashNodeNum → q < t.ddwHashNodeNum → t.isHnodeEmpty p = false →
    t.isHnodeEmpty q = false → t.keyOf p = t.keyOf q → p = q
  /-- From `Begin()` to `End()`, every entry is met exactly once. -/
  visits : ∃ l, t.Visits none l ∧ l.Nodup ∧
    ∀ p, p ∈ l ↔ p < t.ddwHashNodeNum ∧ t.isHnodeEmpty p = false
  /-- `Get` succeeds at every iterator, leaves the table alone and reports the key of the node. -/
  get : ∀ l, t.Visits none l → ∀ p ∈ l, ∃ m, t.get p = (.ok m, t) ∧ m.key = t.keyOf p
  /-- The keys that `Get` reports are the keys that `GetData` finds. -/
  keys : ∀ l, t.Visits none l → ∀ k,
    (∃ p ∈ l, ∃ m t', t.get p = (.ok m, t') ∧ m.key = k) ↔ t.ValidKey k ∧ t.Finds k

end MultiHashTable

/-- Values that are not empty, keys of at most 255 bytes. -/
def MhtOp.Plain : MhtOp → Prop
  | .setData _ k data _ => k.length ≤ 255 ∧ data ≠ []
  | op => op.ShortKey

/-- The blocks of a value fit the buffer of `Get`. -/
def MhtOp.Fitting (t : MultiHashTable) : MhtOp → Prop
  | .setData _ _ data _ =>
    t.lt.blockCount data.length * t.lt.BLOCK_DATA_LEN ≤ HASH_MAX_DATA_LENGTH
  | _ => True

theorem MhtOp.Plain.tame {t : MultiHashTable} {op : MhtOp} (h : op.Plain) : op.Tame t := by
  cases op with
  | setData now k data evict => exact ⟨h.1, fun h0 => absurd h0 h.2⟩
  | getData now k n upd => exact ⟨h, trivial⟩
  | eraseData k => exact ⟨h, trivial⟩
  | get it => exact ⟨h, trivial⟩

namespace MhtState

open MultiHashTable

/-! ## Runs -/

/-- A logged state whose values all fit the buffer of `Get`. -/
structure Fits (s : MhtState) : Prop where
  logged : s.Logged
  fits : ∀ k v, (k, v) ∈ s.log →
    s.table.lt.blockCount v.length * s.table.lt.BLOCK_DATA_LEN ≤ HASH_MAX_DATA_LENGTH

section Runs

variable {s s' : MhtState}

/-- A call writes at most one value to the log. -/
theorem exec_log {op : MhtOp} (h : s.exec op = some s') :
    s'.log = s.log ∨ ∃ now k data evict, op = .setData now k data evict ∧
      s'.log = (k, data) :: s.log := by
  cases op with
  | setData now k data evict =>
    right
    refine ⟨now, k, data, evict, rfl, ?_⟩
    rw [exec] at h
    rcases hset : s.table.setData now k data evict with _ | ⟨r, t⟩
    · simp [hset] at h
    · simp only [hset, Option.some.injEq] at h
      rw [← h]
  | getData now k n upd => exact .inl (by rw [← Option.some.inj h])
  | eraseData k => exact .inl (by rw [← Option.some.inj h])
  | get it => exact .inl (by rw [← Option.some.inj h])

theorem step_fits (h : s.Fits) (hs : Step (fun t op => op.Plain ∧ op.Fitting t) s s') : s'.Fits := by
  obtain ⟨-, hsize, -⟩ := step_keeps h.logged (fun _ _ ha => MhtOp.Plain.tame ha.1) hs
  have hroom : ∀ v : List UInt8, s'.table.lt.blockCount v.length * s'.table.lt.BLOCK_DATA_LEN =
      s.table.lt.blockCount v.length * s.table.lt.BLOCK_DATA_LEN := by
    intro v
    simp only [LinkTable.blockCount, LinkTable.BLOCK_DATA_LEN, hsize]
  refine ⟨step_logged h.logged (hs.mono fun _ _ ha => MhtOp.Plain.tame ha.1), fun k v hmem => ?_⟩
  rw [hroom]
  obtain ⟨op, -, ⟨-, hfit⟩, heq⟩ := hs
  rcases exec_log heq with hlog | ⟨now, k', data, evict, rfl, hlog⟩
  · exact h.fits k v (hlog ▸ hmem)
  · rw [hlog] at hmem
    rcases List.mem_cons.mp hmem with heq | hmem
    · obtain ⟨-, rfl⟩ := Prod.mk.inj heq
      exact hfit
    · exact h.fits k v hmem

/-- A value of the log is read in full by `Get`. -/
theorem Fits.read {k : List UInt8} {p : Nat} (h : s.Fits) (hp : s.table.Has k p) :
    ∃ d, d ≠ [] ∧ s.table.readNode p HASH_MAX_DATA_LENGTH = .ok d := by
  obtain ⟨-, v, d, hmem, hsuf, hne, hread⟩ := h.logged.entry k p hp
  have hbdl := h.logged.inv.lt.toGeometry.bdl
  have hcount : s.table.lt.blockCount d.length ≤ s.table.lt.blockCount v.length := by
    refine Nat.div_le_div_right ?_
    have := hsuf.length_le
    omega
  have hroom := Nat.le_trans (Nat.mul_le_mul_right s.table.lt.BLOCK_DATA_LEN hcount)
    (h.fits k v hmem)
  have hmax : HASH_MAX_DATA_LENGTH = 104857600 := rfl
  refine ⟨d, hne, ?_⟩
  rw [hread, MapState.reading, if_neg (by omega), if_neg (by omega)]

theorem get_of_readNode {t : MultiHashTable} {p : Nat} {d : List UInt8}
    (h : t.readNode p HASH_MAX_DATA_LENGTH = .ok d) :
    t.get p = (.ok ⟨t.nodeAccessTime p, t.keyOf p, d⟩, t) := by
  rw [readNode] at h
  rw [MultiHashTable.get]
  cases hg : t.lt.getData (t.nodeLtPos p) HASH_MAX_DATA_LENGTH with
  | error e =>
    rw [hg] at h
    simp at h
  | ok d' =>
    rw [hg] at h
    obtain rfl := Except.ok.inj h
    rfl

/-- `Get` takes a node whose value does not fit its buffer for a damaged one. -/
theorem get_wipes {t : MultiHashTable} {p : Nat}
    (h : t.readNode p HASH_MAX_DATA_LENGTH = .error (.linkTableGet .notEnoughSpaceForData)) :
    t.get p = (.error (.wiped .notEnoughSpaceForData), t.wipeNode p) := by
  rw [readNode] at h
  rw [MultiHashTable.get]
  cases hg : t.lt.getData (t.nodeLtPos p) HASH_MAX_DATA_LENGTH with
  | ok d =>
    rw [hg] at h
    simp at h
  | error e =>
    rw [hg] at h
    obtain rfl : e = .notEnoughSpaceForData := by simpa using h
    rfl

theorem has_of_entry {t : MultiHashTable} {p : Nat} (hp : p ∈ t.entries) : t.Has (t.keyOf p) p :=
  ⟨(mem_entries.mp hp).1, (mem_entries.mp hp).2, rfl⟩

/-- What `GetData` finds is an entry. -/
theorem Logged.finds_iff (h : s.Logged) {k : List UInt8} (hk : s.table.ValidKey k) (hread :
    ∀ p, s.table.Has k p → ∃ d, d ≠ [] ∧ s.table.readNode p HASH_MAX_DATA_LENGTH = .ok d) :
    s.table.Finds k ↔ ∃ p, s.table.Has k p := by
  constructor
  · rintro ⟨now, n, upd, d, hne, hget⟩
    by_contra hno
    rcases Nat.lt_or_ge n 1 with hn | hn
    · rw [(getData_small hn now upd).1] at hget
      simp at hget
    · rw [(getData_absent h.inv hk hn (fun p hp => hno ⟨p, hp⟩) now upd).1] at hget
      exact hne (Except.ok.inj hget).symm
  · rintro ⟨p, hp⟩
    obtain ⟨d, hne, hd⟩ := hread p hp
    exact ⟨0, HASH_MAX_DATA_LENGTH, false, d, hne, by
      rw [(getData_has h.inv hk (by decide) hp 0 false).1, hd]⟩

theorem Fits.indexed (h : s.Fits) : s.table.Indexed := by
  have hinv := h.logged.inv
  have hempty : ∀ {p}, s.table.isHnodeEmpty p = false ↔ s.table.nodeLtPos p ≠ 0 := by
    intro p
    simp [isHnodeEmpty]
  have hvisits := visits_entries hinv
  refine ⟨fun p hp hne => ?_, fun p q hp hq hp0 hq0 => ?_, ?_, fun l hl p hp => ?_, fun l hl k => ?_⟩
  · obtain ⟨hhash, i, hi, hslot⟩ := hinv.placed p hp (hempty.mp hne)
    exact ⟨hhash, i, hi, Nat.lt_of_le_of_lt hi hinv.maxRow, by rw [hinv.rows.starts]; exact hslot⟩
  · exact hinv.unique p q hp hq (hempty.mp hp0) (hempty.mp hq0)
  · exact ⟨_, hvisits, entries_nodup, fun p => by rw [mem_entries, hempty]⟩
  · obtain rfl := hl.unique hvisits
    obtain ⟨d, -, hd⟩ := h.read (has_of_entry hp)
    exact ⟨_, get_of_readNode hd, rfl⟩
  · obtain rfl := hl.unique hvisits
    constructor
    · rintro ⟨p, hp, m, t', hget, rfl⟩
      have hhas := has_of_entry hp
      rw [← (get_eq_ok hget).1] at hhas
      have hk := (h.logged.entry _ p hhas).1
      exact ⟨hk, (h.logged.finds_iff hk fun q hq => h.read hq).mpr ⟨p, hhas⟩⟩
    · rintro ⟨hk, hfinds⟩
      obtain ⟨p, hp⟩ := (h.logged.finds_iff hk fun q hq => h.read hq).mp hfinds
      obtain ⟨d, -, hd⟩ := h.read hp
      exact ⟨p, mem_entries.mpr ⟨hp.1, hp.2.1⟩, _, _, get_of_readNode hd, hp.2.2⟩

/-- **The index and its iterators**, in every state of every run whose values fit. -/
theorem run_indexed {t : MultiHashTable} (h : Created t)
    (hrun : Relation.ReflTransGen (Step fun t op => op.Plain ∧ op.Fitting t) ⟨t, []⟩ s) :
    s.table.Indexed := by
  have hstart : Fits ⟨t, []⟩ := ⟨created_logged h, fun k v hmem => by simp at hmem⟩
  exact (run_invariant hrun hstart step_fits).indexed

/-- One write into `smallTable`. -/
theorem run_indexed_oneWrite : ∃ t', smallTable.setData 0 [1] [9] false = some (.ok (), t') ∧
    t'.Indexed := by
  have hplain : MhtOp.Plain (.setData 0 [1] [9] false) := ⟨show 1 ≤ 255 by decide, by decide⟩
  have hfit : MhtOp.Fitting smallTable (.setData 0 [1] [9] false) :=
    show smallTable.lt.blockCount 1 * smallTable.lt.BLOCK_DATA_LEN ≤ HASH_MAX_DATA_LENGTH by decide
  obtain ⟨t', hset, hstep⟩ := write_step (fun t op => op.Plain ∧ op.Fitting t) ⟨smallTable, []⟩
    [1] [9] (r := .ok ()) (by decide) ⟨hplain, hfit⟩ (by decide +kernel)
  exact ⟨t', hset, run_indexed smallTable_created (.single hstep)⟩

end Runs

/-! ## A value that does not fit the buffer of `Get` -/

/-- Rows of 71 and 31 nodes, and 12822 usable blocks of 8192 bytes. -/
def hugeTable : MultiHashTable :=
  { smallTable with
    ddwHashNodeNum := 102
    ddwHashNodeSize := 10256
    auRowsNodeNum := fun i => [71, 31].getD i 0
    auRowsStartNode := fun i => ([71, 31].take i).sum
    lt := { LtState.fourBlocks with
      ddwAllBlockCount := 12823
      ddwFreeBlockCount := 12823
      ddwBlockSize := 8192
      blocks := fun _ => ⟨0, 0, List.replicate 8184 0⟩ } }

theorem init_hugeTable :
    initFromBuffer 108200000 10240 2 1 8192 defaultHashFunc false = .ok hugeTable := by
  have hratio : nodeNumRatio2MemSizeRatio 10256 8192 1 = 1 := by decide
  have hnum : evaluateHashNodeNum 108200000 10256 1 = 104 := by decide +kernel
  have hrows : calcNodeNumForEachRow 2 104 = [71, 31] := by decide +kernel
  have hsize : evaluateHashNodeSize 10240 = 10256 := rfl
  rw [initFromBuffer, if_neg (by decide)]
  simp only [hsize, hratio, hnum, hrows]
  rfl

theorem hugeTable_created : Created hugeTable := by
  refine ⟨_, _, _, _, _, _, _, init_hugeTable, ?_, by decide, by decide⟩
  intro i hi
  have : i = 0 ∨ i = 1 := by
    have : i < 2 := hi
    omega
  rcases this with rfl | rfl <;> decide

/-- A value of `HASH_MAX_DATA_LENGTH` bytes. -/
@[irreducible] def hugeValue : List UInt8 := List.replicate HASH_MAX_DATA_LENGTH 7

theorem length_hugeValue : hugeValue.length = 104857600 := by
  rw [hugeValue, List.length_replicate]
  rfl

theorem hugeValue_ne : hugeValue ≠ [] := by
  rw [← List.length_pos_iff, length_hugeValue]
  decide

theorem hugeValue_blocks : hugeTable.lt.blockCount hugeValue.length = 12813 := by
  rw [length_hugeValue]
  rfl

theorem hugeTable_emptyBlocks : hugeTable.lt.emptyBlocks.card = 12822 := by
  have hall : hugeTable.lt.emptyBlocks = Finset.Ioo 0 12823 := by
    ext b
    rw [LinkTable.mem_emptyBlocks, Finset.mem_Ioo]
    exact ⟨fun h => ⟨h.1, h.2.1⟩, fun h => ⟨h.1, h.2, rfl⟩⟩
  rw [hall, Nat.card_Ioo]

/-- The block store takes it. -/
theorem hugeTable_stores : ∃ pos lt, hugeTable.lt.setData 0 hugeValue = (.ok pos, lt) := by
  have hout := LinkTable.setData_outcome 0 (created_inv hugeTable_created).lt.toGeometry.fits
    hugeValue_ne
  have hmax : hugeTable.lt.blockCount hugeValue.length ≤ MAX_BLOCK_COUNT := by
    rw [hugeValue_blocks]
    decide
  generalize hugeTable.lt.setData 0 hugeValue = r at hout ⊢
  cases hout with
  | tooLarge h => exact absurd h (Nat.not_lt.mpr hmax)
  | noSpace t1 _ hget halloc =>
    -- all 12822 usable blocks are empty
    have hfull := halloc.full _ rfl hmax (by rw [hugeValue_blocks]; decide) (by decide)
    rw [hugeValue_blocks, hugeTable_emptyBlocks] at hfull
    omega
  | noBlocks t1 h => exact absurd h (by decide)
  | shortList t1 p q l hrel hcur hpath hshort =>
    -- there is no free list to go round in
    obtain ⟨-, -, ⟨l', q', hp, hlen, -⟩, -⟩ := hpath.cycles.mp hshort
    rw [hugeValue_blocks] at hlen
    cases l' with
    | nil => simp at hlen
    | cons x l' =>
      obtain ⟨h0, hne, -⟩ := hp
      exact absurd h0.symm hne
  | stored t1 p q l => exact ⟨p, _, rfl⟩

/-- A store that succeeds at once. -/
theorem setData_at_once {t : MultiHashTable} {k data : List UInt8} {evict : Bool} {w : Place}
    {pos : Nat} {lt : LinkTable} (hk : k ≠ []) (hplace : t.place k evict = (.ok w, t))
    (hlt : t.lt.setData (t.nodeLtPos w.pDataNode) data = (.ok pos, lt)) (now : Nat) :
    (t.setData now k data evict).map Prod.fst = some (.ok ()) := by
  rw [setData, if_neg hk, hplace]
  simp only [storeLoop, hlt, Option.map_some]

theorem hugeTable_setData : (hugeTable.setData 0 [1] hugeValue false).map Prod.fst =
    some (.ok ()) := by
  have hplace : hugeTable.place [1] false = (.ok ⟨1, true, 0, none⟩, hugeTable) := by rfl
  have hpos : hugeTable.nodeLtPos 1 = 0 := by rfl
  obtain ⟨pos, lt, hlt⟩ := hugeTable_stores
  exact setData_at_once (by decide) hplace (hpos ▸ hlt) 0

/-- The state after it: one entry, which needs 12813 blocks. -/
theorem hugeTable_entry : ∃ s, Step (fun _ op => op.Plain) ⟨hugeTable, []⟩ s ∧
    hugeTable.setData 0 [1] hugeValue false = some (.ok (), s.table) ∧
    s.Logged ∧ s.log = [([1], hugeValue)] ∧ s.table.ValidKey [1] ∧ ∃ p, s.table.Has [1] p ∧
    (∀ n, 8184 ≤ n → n < 12813 * 8184 →
      s.table.readNode p n = .error (.linkTableGet .notEnoughSpaceForData)) ∧
    s.table.readNode p (12813 * 8184) = .ok hugeValue := by
  have hinv := created_inv hugeTable_created
  have hkey : hugeTable.ValidKey [1] := by decide
  obtain ⟨t', hset, hstep⟩ := write_step (fun _ op => op.Plain) ⟨hugeTable, []⟩ [1] hugeValue
    (by decide) ⟨show 1 ≤ 255 by decide, hugeValue_ne⟩ hugeTable_setData
  obtain ⟨hkeeps, hend⟩ := setData_keeps hinv hkey hugeValue_ne hset
  have hno : ¬ hugeTable.lt.Overruns (hugeTable.lt.blockCount hugeValue.length) := by
    rintro ⟨-, -, -, -, -, -, hcard⟩
    rw [hugeValue_blocks, hugeTable_emptyBlocks] at hcard
    omega
  obtain ⟨p, hp, hread⟩ := MapState.setEnds_entry hinv hkey hugeValue_ne hend hno
  have hbdl : t'.lt.BLOCK_DATA_LEN = 8184 := by
    rw [LinkTable.BLOCK_DATA_LEN, hkeeps.blockSize]
    rfl
  have hcount : t'.lt.blockCount hugeValue.length = 12813 := by
    rw [LinkTable.blockCount, hbdl, length_hugeValue]
  refine ⟨_, hstep, hset, step_logged (created_logged hugeTable_created)
    (hstep.mono fun _ _ ha => ha.tame), rfl, hkeeps.shape.validKey.mpr hkey, p, hp, ?_, ?_⟩
  · intro n hn hlt
    rw [hread, MapState.reading, hbdl, hcount, if_neg (by omega), if_pos (by omega)]
  · rw [hread, MapState.reading, hbdl, hcount, if_neg (by decide), if_neg (by decide)]

/-- **The defect.**  `SetData` accepts a value of 100 MB and `GetData` reads it back, but its
    blocks need more room than `Get` has: `Get` takes the node of key `01` for a damaged one, fails
    with `-21` and wipes it. -/
theorem huge_value_wiped : Created hugeTable ∧ ∃ s,
    Relation.ReflTransGen (Step fun _ op => op.Plain) ⟨hugeTable, []⟩ s ∧
    (s.table.getData 0 [1] (12813 * 8184) true).result = .ok hugeValue ∧
    (∃ it, s.table.next none = some it ∧ s.table.keyOf it = [1] ∧ s.table.get it =
      (.error (.wiped .notEnoughSpaceForData), s.table.wipeNode it)) ∧ ¬ s.table.Indexed := by
  obtain ⟨s, hstep, -, hlog, hval, hkey, p, hp, hsmall, hlarge⟩ := hugeTable_entry
  have hpe : p ∈ s.table.entries := mem_entries.mpr ⟨hp.1, hp.2.1⟩
  have hvisits := visits_entries hlog.inv
  have hget := get_wipes (hsmall HASH_MAX_DATA_LENGTH (by decide) (by decide))
  -- the only entry is the one of `01`
  have hfirst : s.table.next none = some p := by
    cases hl : s.table.entries with
    | nil =>
      rw [hl] at hpe
      simp at hpe
    | cons q l =>
      rw [hl] at hvisits
      have hq : s.table.Has (s.table.keyOf q) q := has_of_entry (by rw [hl]; exact List.mem_cons_self)
      obtain ⟨-, v, d, hmem, -⟩ := hlog.entry _ q hq
      rw [hval, List.mem_singleton] at hmem
      rw [(Prod.mk.inj hmem).1] at hq
      rw [hlog.inv.has_unique hp hq]
      exact hvisits.1
  refine ⟨hugeTable_created, s, .single hstep, ?_, ⟨p, hfirst, hp.2.2, hget⟩, fun hidx => ?_⟩
  · rw [(getData_has hlog.inv hkey (by decide) hp 0 true).1, hlarge]
  · obtain ⟨m, hm, -⟩ := hidx.get _ hvisits p hpe
    rw [hget] at hm
    simp at hm

end MhtState

end MysqlProxy
