/-
  Whole runs of a `LinkTable`.

  A client of the table holds HANDLES: `SetData` on the null handle or on a live one, `EraseData`
  on a live one, `SetRecyclePoolSize` at any time.  `LtState` is the table with the list of live
  handles and what was last stored through each; `LtState.step` is one call.

  `LtState.Intact` is what the client may expect of every state: chains that do not touch each
  other, and read-back of every live handle for every size of buffer.  It holds in every state of
  every run in which no request OVERRUNS (`run_intact`).  A request that does overrun is answered
  with `0` and read back as something else (`overrun_not_intact`).
-/
import MysqlProxy.Ht.LinkTableData
import MysqlProxy.Lib.Run

namespace MysqlProxy

/-- The calls a client makes. -/
inductive LtOp where
  | setData (ddwPos : Nat) (data : List UInt8)
  | eraseData (ddwPos : Nat)
  | setRecyclePoolSize (sz : Int)

/-- A table, its live handles and the bytes last stored through each of them. -/
structure LtState where
  table : LinkTable
  live : List (Nat × List UInt8)

namespace LtState

/-- The handles of the live values. -/
def handles (s : LtState) : List Nat := s.live.map Prod.fst

/-- What the client is allowed to ask for. -/
def Legal (s : LtState) : LtOp → Prop
  | .setData ddwPos data => (ddwPos = 0 ∨ ddwPos ∈ s.handles) ∧ 1 ≤ data.length ∧
      data.length ≤ 25 * 1024 * (s.table.ddwBlockSize - 8)
  | .eraseData ddwPos => ddwPos ∈ s.handles
  | .setRecyclePoolSize _ => True

/-- Forget a handle. -/
def drop (s : LtState) (ddwPos : Nat) : List (Nat × List UInt8) :=
  s.live.filter fun e => e.1 ≠ ddwPos

/-- One call.  A successful `SetData` exchanges the handle. -/
def exec (s : LtState) : LtOp → LtState
  | .setData ddwPos data =>
    match s.table.setData ddwPos data with
    | (.ok p, t) => ⟨t, (p, data) :: s.drop ddwPos⟩
    | (.error _, t) => ⟨t, s.live⟩
  | .eraseData ddwPos => ⟨s.table.eraseData ddwPos, s.drop ddwPos⟩
  | .setRecyclePoolSize sz => ⟨(s.table.setRecyclePoolSize sz).2, s.live⟩

/-- One legal call that also meets `allowed`. -/
inductive Step (allowed : LtState → LtOp → Prop) : LtState → LtState → Prop where
  | call (s : LtState) (op : LtOp) : s.Legal op → allowed s op → Step allowed s (s.exec op)

/-- The states of the runs from `s`. -/
def Run (allowed : LtState → LtOp → Prop) : LtState → LtState → Prop :=
  Relation.ReflTransGen (Step allowed)

/-- The chains of the live handles and of the ring entries are finite, acyclic, pairwise disjoint
    sequences of used blocks, and every live handle reads what was stored through it, provided the
    buffer has room for all of its blocks. -/
def Intact (s : LtState) : Prop :=
  s.table.Isolated s.handles ∧
    ∀ e ∈ s.live, ∀ n, s.table.getData e.1 n =
      if n < s.table.BLOCK_DATA_LEN then .error .badArgument
      else if n < s.table.blockCount e.2.length * s.table.BLOCK_DATA_LEN then
        .error .notEnoughSpaceForData
      else .ok e.2

/-- The call does not make the scan take a block twice. -/
def NoOverrun (s : LtState) : LtOp → Prop
  | .setData _ data => ¬ s.table.Overruns (s.table.blockCount data.length)
  | _ => True

/-! ## The invariant of a run -/

/-- What carries the induction: a valid table whose handles hold their values. -/
structure Inv (s : LtState) : Prop where
  valid : s.table.Valid s.handles
  ne_zero : ∀ p ∈ s.handles, p ≠ 0
  holds : ∀ e ∈ s.live, s.table.Holds e.1 e.2

theorem Inv.intact {s : LtState} (h : s.Inv) : s.Intact :=
  ⟨h.valid.isolated, fun e he n => (h.holds e he).getData h.valid.toGeometry n⟩

theorem mem_drop {s : LtState} {ddwPos : Nat} {e : Nat × List UInt8} (h : e ∈ s.drop ddwPos) :
    e ∈ s.live := (List.mem_filter.mp h).1

/-- Dropping a live handle takes exactly one entry out. -/
theorem handles_perm {s : LtState} {ddwPos : Nat} (h : s.Inv) (hp : ddwPos ∈ s.handles) :
    s.handles.Perm (ddwPos :: (s.drop ddwPos).map Prod.fst) := by
  have hnd : s.handles.Nodup := Owns.nodup h.valid.isolated h.ne_zero
  have hdrop : (s.drop ddwPos).map Prod.fst = s.handles.erase ddwPos := by
    rw [hnd.erase_eq_filter, handles, List.filter_map, drop]
    congr 1
    refine List.filter_congr fun e _ => ?_
    simp [bne, BEq.beq]
  rw [hdrop]
  exact List.perm_cons_erase hp

/-- Dropping the null handle drops nothing. -/
theorem drop_zero {s : LtState} (h : s.Inv) : s.drop 0 = s.live := by
  refine List.filter_eq_self.mpr fun e he => ?_
  simpa using h.ne_zero e.1 (List.mem_map_of_mem he)

/-- A call of `SetData` starts from a table that is valid for its handle and all the others. -/
theorem Inv.valid_cons {s : LtState} {ddwPos : Nat} (h : s.Inv)
    (hp : ddwPos = 0 ∨ ddwPos ∈ s.handles) :
    s.table.Valid (ddwPos :: (s.drop ddwPos).map Prod.fst) := by
  rcases hp with rfl | hp
  · rw [drop_zero h]
    exact h.valid.cons_zero
  · exact h.valid.perm (handles_perm h hp)

theorem setData_inv {s : LtState} {ddwPos : Nat} {data : List UInt8} (h : s.Inv)
    (hl : s.Legal (.setData ddwPos data)) (hno : s.NoOverrun (.setData ddwPos data)) :
    (s.exec (.setData ddwPos data)).Inv := by
  obtain ⟨hp, hlen, -⟩ := hl
  have hd : data ≠ [] := by
    rintro rfl
    simp at hlen
  rcases LinkTable.setData_valid (h.valid_cons hp) hd with ⟨e, t', heq, hk, -⟩ | ⟨p, t', heq, hst⟩
  · obtain ⟨hv', hkeep⟩ := hk.valid h.valid
    simp only [exec, heq]
    refine ⟨hv', h.ne_zero, fun e he => ?_⟩
    exact (h.holds e he).keep (List.mem_map_of_mem he) hk.all hk.size
      (hkeep.mono (List.subset_append_left _ _))
  · simp only [exec, heq]
    refine ⟨hst.valid, ?_, ?_⟩
    · intro q hq
      rcases List.mem_cons.mp hq with rfl | hq
      · exact hst.ne_zero
      · obtain ⟨e, he, rfl⟩ := List.mem_map.mp hq
        exact h.ne_zero e.1 (List.mem_map_of_mem (mem_drop he))
    · intro e he
      rcases List.mem_cons.mp he with rfl | he
      · exact hst.holds hno
      · exact (h.holds e (mem_drop he)).keep (List.mem_map_of_mem he) hst.all hst.size hst.keeps

theorem eraseData_inv {s : LtState} {ddwPos : Nat} (h : s.Inv)
    (hl : s.Legal (.eraseData ddwPos)) : (s.exec (.eraseData ddwPos)).Inv := by
  obtain ⟨hv, hk, hhead⟩ := (h.valid_cons (.inr hl)).recycleBlock
  refine ⟨hv, ?_, fun e he => ?_⟩
  · intro q hq
    obtain ⟨e, he, rfl⟩ := List.mem_map.mp hq
    exact h.ne_zero e.1 (List.mem_map_of_mem (mem_drop he))
  · exact (h.holds e (mem_drop he)).keep (List.mem_map_of_mem he) hhead.all hhead.size hk

theorem setRecyclePoolSize_inv {s : LtState} {sz : Int} (h : s.Inv) :
    (s.exec (.setRecyclePoolSize sz)).Inv := by
  by_cases hsz : sz < 1 ∨ sz > LT_MAX_RECYCLE_POOL_SIZE
  · simpa only [exec, LinkTable.setRecyclePoolSize, if_pos hsz] using h
  · obtain ⟨-, hhead, hk, -⟩ :=
      LinkTable.emptyRecyclePool_isolated h.valid.ring h.valid.isolated
    simp only [exec, LinkTable.setRecyclePoolSize, if_neg hsz]
    have hsound := h.valid.sound.resize (n := sz.toNat) (by omega) (by omega)
    refine ⟨hsound.valid h.valid hhead.size, h.ne_zero, fun e he => ?_⟩
    exact (h.holds e he).keep (List.mem_map_of_mem he) hhead.all hhead.size hk

/-- One call that does not overrun keeps the invariant. -/
theorem step_inv {s s' : LtState} (h : s.Inv) (hs : Step NoOverrun s s') : s'.Inv := by
  obtain ⟨op, hl, hno⟩ := hs
  cases op with
  | setData ddwPos data => exact setData_inv h hl hno
  | eraseData ddwPos => exact eraseData_inv h hl
  | setRecyclePoolSize sz => exact setRecyclePoolSize_inv h

end LtState

/-! ## Initial tables -/

namespace LinkTable

theorem init_eq {ddwBufferSize ddwBlockCount ddwBlockSize : Nat} {t : LinkTable}
    (h : init ddwBufferSize ddwBlockCount ddwBlockSize = .ok t) :
    t.ddwAllBlockCount = dec64 ddwBlockCount ∧ t.ddwFreeBlockCount = dec64 ddwBlockCount ∧
      t.ddwBlockSize = ddwBlockSize ∧ t.ddwLastEmpty = 1 ∧
      t.dwRecyclePoolSize = LT_DEF_RECYCLE_POOL_SIZE ∧ ∀ i, t.addwRecyclePool i = 0 := by
  unfold init at h
  split at h
  · simp at h
  · obtain rfl := (Except.ok.inj h).symm
    exact ⟨rfl, rfl, rfl, rfl, rfl, fun _ => rfl⟩

theorem isolated_of_pool_zero {t : LinkTable} (h : ∀ i, t.addwRecyclePool i = 0) :
    t.Isolated [] := by
  refine Owns.zeros fun r hr => ?_
  obtain ⟨i, -, rfl⟩ := mem_slots.mp (by simpa [ring] using hr)
  exact h i

theorem init_valid {ddwBufferSize ddwBlockCount ddwBlockSize : Nat} {t : LinkTable}
    (h : init ddwBufferSize ddwBlockCount ddwBlockSize = .ok t)
    (hs : 32 ≤ ddwBlockSize ∧ ddwBlockSize ≤ 8192)
    (hc : 0 < ddwBlockCount ∧ t.ddwAllBlockCount ≤ 2 ^ 48) : t.Valid [] := by
  obtain ⟨hall, -, hsize, hlast, hpool, hzero⟩ := init_eq h
  rw [dec64_of_pos hc.1] at hall
  refine ⟨⟨by omega, by omega, by omega, ?_⟩, ⟨?_, ?_, fun i _ => hzero i⟩,
    isolated_of_pool_zero hzero⟩
  · unfold CursorOk
    omega
  · rw [hpool]; decide
  · rw [hpool]; decide

theorem init_len {ddwBufferSize ddwBlockCount ddwBlockSize : Nat} {t : LinkTable}
    (h : init ddwBufferSize ddwBlockCount ddwBlockSize = .ok t) (b : Nat) : t.len b = 0 := by
  rw [init] at h
  split at h
  · simp at h
  · obtain rfl := (Except.ok.inj h).symm
    rfl

/-- A free count of `-1` refuses every value. -/
theorem setData_refused {t : LinkTable} (ddwPos : Nat) (data : List UInt8)
    (hfree : t.ddwFreeBlockCount = 2 ^ 64 - 1) :
    ∃ e, t.setData ddwPos data = (.error e, t) ∧ (e = .dataTooLarge ∨ e = .notEnoughSpace) := by
  -- the free count is `-1` as an `int`
  have hint : int32 t.ddwFreeBlockCount = -1 := by rw [hfree]; decide
  have hget : t.getEmptyBlock (t.blockCount data.length) = (.error .notEnoughSpace, t) := by
    rw [getEmptyBlock, hint, if_pos (.inr (by omega))]
  rw [setData]
  by_cases hmax : t.blockCount data.length > MAX_BLOCK_COUNT
  · exact ⟨.dataTooLarge, if_pos hmax, .inl rfl⟩
  · exact ⟨.notEnoughSpace, by rw [if_neg hmax, hget], .inr rfl⟩

end LinkTable

namespace LtState

/-- A table initialised with no block at all refuses every value. -/
structure Unusable (s : LtState) : Prop where
  live : s.live = []
  free : s.table.ddwFreeBlockCount = 2 ^ 64 - 1
  size : 32 ≤ s.table.ddwBlockSize
  pool : ∀ i, s.table.addwRecyclePool i = 0

theorem emptySlot_of_zero {t : LinkTable} {i : Nat} (h : t.addwRecyclePool i = 0) :
    t.emptySlot i = t := by
  rw [LinkTable.emptySlot, if_neg (by simpa using h)]

theorem emptyRecyclePool_of_zero {t : LinkTable} (h : ∀ i, t.addwRecyclePool i = 0) :
    t.emptyRecyclePool = { t with ddwRecycleIndex := 0 } := by
  have hfold : ∀ l : List Nat, l.foldl LinkTable.emptySlot t = t := by
    intro l
    induction l with
    | nil => rfl
    | cons i l ih => rw [List.foldl_cons, emptySlot_of_zero (h i), ih]
  rw [LinkTable.emptyRecyclePool, hfold]

theorem step_unusable {allowed : LtState → LtOp → Prop} {s s' : LtState} (h : s.Unusable)
    (hs : Step allowed s s') : s'.Unusable := by
  obtain ⟨op, hl, -⟩ := hs
  cases op with
  | setData ddwPos data =>
    obtain ⟨e, he, -⟩ := LinkTable.setData_refused ddwPos data h.free
    simpa only [exec, he] using h
  | eraseData ddwPos =>
    simp [Legal, handles, h.live] at hl
  | setRecyclePoolSize sz =>
    simp only [exec, LinkTable.setRecyclePoolSize]
    split
    · exact h
    · rw [emptyRecyclePool_of_zero h.pool]
      exact ⟨h.live, h.free, h.size, h.pool⟩

theorem Unusable.intact {s : LtState} (h : s.Unusable) : s.Intact := by
  refine ⟨?_, fun e he => ?_⟩
  · rw [handles, h.live]
    exact LinkTable.isolated_of_pool_zero h.pool
  · rw [h.live] at he
    simp at he

/-! ## The main result -/

/-- **Isolation and read-back.**  In every state of every run without an overrun the chains are
    apart and every live handle reads its value. -/
theorem run_intact {ddwBufferSize ddwBlockCount ddwBlockSize : Nat} {t : LinkTable} {s : LtState}
    (hs : 32 ≤ ddwBlockSize ∧ ddwBlockSize ≤ 8192) (hc : ddwBlockCount ≤ 2 ^ 48)
    (h : LinkTable.init ddwBufferSize ddwBlockCount ddwBlockSize = .ok t)
    (hrun : Run NoOverrun ⟨t, []⟩ s) : s.Intact := by
  rcases Nat.eq_zero_or_pos ddwBlockCount with h0 | h0
  · have hstart : Unusable ⟨t, []⟩ := by
      obtain ⟨-, hfree, hsize, -, -, hzero⟩ := LinkTable.init_eq h
      exact ⟨rfl, by rw [hfree, h0]; rfl, by show 32 ≤ t.ddwBlockSize; omega, hzero⟩
    exact (run_invariant hrun hstart step_unusable).intact
  · have hall : t.ddwAllBlockCount ≤ 2 ^ 48 := by
      rw [(LinkTable.init_eq h).1, dec64_of_pos h0]
      omega
    have hstart : Inv ⟨t, []⟩ :=
      ⟨LinkTable.init_valid h hs ⟨h0, hall⟩, by simp [handles], by simp⟩
    exact (run_invariant hrun hstart step_inv).intact

/-- The table that `Init` makes of a buffer with four blocks of 32 bytes: positions `1` and `2`
    are usable. -/
def fourBlocks : LinkTable where
  ddwAllBlockCount := 3
  ddwFreeBlockCount := 3
  ddwBlockSize := 32
  ddwLastEmpty := 1
  ddwFirstFreePos := 0
  ddwRecycleIndex := 0
  dwRecyclePoolSize := 100
  addwRecyclePool := fun _ => 0
  blocks := fun _ => ⟨0, 0, List.replicate 24 0⟩

theorem init_fourBlocks : LinkTable.init 2000000 4 32 = .ok fourBlocks := rfl

/-- Two blocks for 30 bytes: the scan finds them and stops. -/
theorem run_intact_two_blocks :
    (exec ⟨fourBlocks, []⟩ (.setData 0 (List.replicate 30 7))).live = [(2, List.replicate 30 7)] ∧
      (exec ⟨fourBlocks, []⟩ (.setData 0 (List.replicate 30 7))).Intact := by
  refine ⟨by decide +kernel, ?_⟩
  refine run_intact (show 32 ≤ 32 ∧ 32 ≤ 8192 by decide) (by decide) init_fourBlocks
    (Relation.ReflTransGen.single (.call _ _ ?_ ?_))
  · exact ⟨.inl rfl, by decide, by decide +kernel⟩
  · show ¬ fourBlocks.Overruns _
    decide +kernel

/-- **The defect.**  49 bytes need three blocks, two are usable and the free count says three: the
    scan takes block `1` twice, `SetData` returns `0`, and what is read back is the last byte. -/
theorem overrun_not_intact : ∃ t s, LinkTable.init 2000000 4 32 = .ok t ∧
    Run (fun _ _ => True) ⟨t, []⟩ s ∧
    s.live = [(1, List.replicate 48 7 ++ [9])] ∧ s.table.getData 1 72 = .ok [9] ∧ ¬ s.Intact := by
  have hread : (exec ⟨fourBlocks, []⟩ (.setData 0 (List.replicate 48 7 ++ [9]))).table.getData 1 72 =
      .ok [9] := by decide +kernel
  have hlive : (exec ⟨fourBlocks, []⟩ (.setData 0 (List.replicate 48 7 ++ [9]))).live =
      [(1, List.replicate 48 7 ++ [9])] := by decide +kernel
  refine ⟨fourBlocks, _, init_fourBlocks, Relation.ReflTransGen.single
    (.call _ (.setData 0 (List.replicate 48 7 ++ [9])) ⟨.inl rfl, by decide, by decide +kernel⟩
      trivial), hlive, hread, ?_⟩
  intro hint
  have hval := hint.2 (1, List.replicate 48 7 ++ [9]) (by rw [hlive]; exact List.mem_singleton.mpr rfl)
    72
  rw [hread] at hval
  revert hval
  decide +kernel

end LtState

end MysqlProxy
