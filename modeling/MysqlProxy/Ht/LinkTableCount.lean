/-
  The free-block counter of a `LinkTable` against the blocks themselves.

  `Init` counts the positions `1 .. ddwAllBlockCount` as free.  The last of them is never handed
  out and its block stays empty, so a count that is exact is ONE MORE than the number of usable
  empty blocks (`LinkTable.countExact_iff`).  `CountedBy` follows that difference through a run: no
  call changes it, except the one that overruns.  There a block is filled twice and counted twice,
  and from then on the counter is one short for good.

  So the counter tells whether a run has overrun: `LtState.plays_countExact_iff`.
-/
import MysqlProxy.Ht.LinkTableSpace

namespace MysqlProxy

namespace LinkTable

/-- The positions `1 .. ddwAllBlockCount` whose block has length zero. -/
def zeroLengthBlocks (t : LinkTable) : Finset Nat :=
  (Finset.Icc 1 t.ddwAllBlockCount).filter fun b => t.len b = 0

/-- The counter is the number of blocks with length zero. -/
def CountExact (t : LinkTable) : Prop := t.ddwFreeBlockCount = t.zeroLengthBlocks.card

instance (t : LinkTable) : Decidable t.CountExact := inferInstanceAs (Decidable (_ = _))

/-! ## The last position -/

/-- The block behind the usable ones is empty. -/
def LastClear (t : LinkTable) : Prop := t.len t.ddwAllBlockCount = 0

theorem LastClear.of_eq {t t' : LinkTable} (h : LastClear t)
    (hall : t'.ddwAllBlockCount = t.ddwAllBlockCount)
    (hlen : t'.len t.ddwAllBlockCount = t.len t.ddwAllBlockCount) : LastClear t' := by
  rw [LastClear, hall, hlen]
  exact h

theorem LastClear.relinked {t t' : LinkTable} (h : LastClear t) (hrel : Relinked t t') :
    LastClear t' := h.of_eq hrel.all (hrel.len _)

/-- A path of empty blocks does not lead there. -/
theorem LastClear.fillPath {t t1 : LinkTable} {l : List Nat} (h : LastClear t)
    (hrel : Relinked t t1) (hl : ∀ b ∈ l, t.Empty b) (data : List UInt8) :
    LastClear (fillPath l data t1) := by
  have hnot : t.ddwAllBlockCount ∉ l := fun hb => Nat.lt_irrefl _ (hl _ hb).2.1
  refine h.of_eq ((fillPath_head l data t1).1.all.trans hrel.all) ?_
  rw [len, fillPath_blocks data t1 hnot]
  exact hrel.len _

theorem LastClear.store {t : LinkTable} {data : List UInt8} (h : LastClear t) (hf : Fits t)
    (hd : data ≠ []) : LastClear (t.setData 0 data).2 := by
  have hout := setData_outcome 0 hf hd
  generalize t.setData 0 data = r at hout ⊢
  cases hout with
  | tooLarge hmax => exact h
  | noSpace t1 hmax hget halloc => exact h.relinked halloc.relinked
  | noBlocks t1 htiny hrel hcur hno => exact h.relinked hrel
  | shortList t1 p q l hrel hcur hpath hshort => exact h.fillPath hrel hpath.empty data
  | stored t1 p q l hrel hcur hpath hfull hmax =>
    refine (h.fillPath hrel hpath.empty data).of_eq rfl ?_
    rw [if_neg (by simp), storePath, setNext_len, setNext_len]

theorem LastClear.free {t : LinkTable} {l : List Nat} (h : LastClear t) (hl : ∀ b ∈ l, t.Used b) :
    LastClear (l.foldl pushFree t) := by
  have hnot : t.ddwAllBlockCount ∉ l := fun hb => Nat.lt_irrefl _ (hl _ hb).2.1
  refine h.of_eq (foldl_pushFree_head l t).1.all ?_
  rw [len, foldl_pushFree_blocks t hnot]
  rfl

theorem LastClear.recycleBlock {t : LinkTable} {p : Nat} {handles : List Nat} (h : LastClear t)
    (hs : Sound t (p :: handles)) : LastClear (t.recycleBlock p) := by
  obtain ⟨l, -, hused, heq, -, -⟩ := recycleBlock_spec hs.ring hs.isolated
  rw [heq]
  exact LastClear.free (t := t.parkBlock p) h hused

theorem LastClear.emptyRecyclePool {t : LinkTable} {handles : List Nat} (h : LastClear t)
    (hs : Sound t handles) : LastClear t.emptyRecyclePool := by
  refine foldl_emptySlot_keeps (P := LastClear) hs.ring hs.isolated h fun hr hi hiso h' => ?_
  obtain ⟨l, -, hused, heq⟩ := emptySlot_spec hr hi hiso
  rw [heq]
  exact h'.free hused

/-- The usable empty blocks and the last one. -/
theorem zeroLengthBlocks_card {t : LinkTable} (h : LastClear t) :
    t.zeroLengthBlocks.card = t.emptyBlocks.card + min 1 t.ddwAllBlockCount := by
  rcases Nat.eq_zero_or_pos t.ddwAllBlockCount with h0 | h0
  · have hnone : t.zeroLengthBlocks = ∅ := by
      rw [zeroLengthBlocks, h0]
      rfl
    rw [hnone, emptyBlocks_tiny (by omega), h0]
    rfl
  · have hsplit : t.zeroLengthBlocks = insert t.ddwAllBlockCount t.emptyBlocks := by
      ext b
      rw [zeroLengthBlocks, Finset.mem_filter, Finset.mem_Icc, Finset.mem_insert, mem_emptyBlocks,
        Empty]
      constructor
      · rintro ⟨⟨h1, hle⟩, hb⟩
        rcases Nat.lt_or_eq_of_le hle with hlt | heq
        · exact .inr ⟨h1, hlt, hb⟩
        · exact .inl heq
      · rintro (rfl | ⟨h1, hlt, hb⟩)
        · exact ⟨⟨h0, Nat.le_refl _⟩, h⟩
        · exact ⟨⟨h1, Nat.le_of_lt hlt⟩, hb⟩
    have hnot : t.ddwAllBlockCount ∉ t.emptyBlocks := fun hb =>
      Nat.lt_irrefl _ (mem_emptyBlocks.mp hb).2.1
    rw [hsplit, Finset.card_insert_of_notMem hnot]
    omega

/-- The counter is exact when it counts the last position too. -/
theorem countExact_iff {k : Nat} {t : LinkTable} (h : LastClear t) (hc : CountedBy k t) :
    t.CountExact ↔ k = min 1 t.ddwAllBlockCount := by
  rw [CountExact, zeroLengthBlocks_card h, hc]
  omega

end LinkTable

namespace LtState

/-! ## Runs -/

theorem call_lastClear {s : LtState} {op : LtOp} (h : s.table.Sound s.handles)
    (hl : s.table.LastClear) (hcall : s.Callable op) (hne : s.NonEmpty op) :
    (s.exec op).table.LastClear := by
  by_cases hw : Writes op
  · obtain ⟨-, hsound⟩ := stored_sound h hcall hne.noNullValue hw
    have hstored : (s.stored op).LastClear := by
      cases op with
      | setData ddwPos data => exact hl.store h.toFits hne
      | _ => exact hl
    rw [exec_table hw]
    cases hq : s.handsOver op with
    | none => exact hstored
    | some q =>
      rw [hq] at hsound
      exact hstored.recycleBlock hsound
  · cases op with
    | setRecyclePoolSize sz =>
      simp only [exec, LinkTable.setRecyclePoolSize]
      split
      · exact hl
      · exact hl.emptyRecyclePool h
    | _ => exact absurd trivial hw

/-- A request that overruns finds two usable positions and a count that is too high. -/
theorem overrun_excess {k : Nat} {s : LtState} {op : LtOp} (hc : LinkTable.CountedBy k s.table)
    (ho : ¬ s.NoOverrun op) : 0 < k ∧ 2 ≤ s.table.ddwAllBlockCount := by
  cases op with
  | setData ddwPos data =>
    have ho' : s.table.Overruns (s.table.blockCount data.length) := not_not.mp ho
    obtain ⟨-, hfree, -, h2, -, -, hE⟩ := ho'
    have hle := Int.le_trans hfree (int32_le (by omega))
    rw [LinkTable.CountedBy] at hc
    omega
  | _ => exact absurd trivial ho

/-- Along a run the count is exact until a request overruns, and never again. -/
theorem plays_countedBy {ops : List LtOp} {k : Nat} {s : LtState} (h : s.table.Sound s.handles)
    (hl : s.table.LastClear) (hk : k ≤ min 1 s.table.ddwAllBlockCount)
    (hc : LinkTable.CountedBy k s.table) (hplays : Plays NonEmpty ops s) :
    (ops.foldl exec s).table.CountExact ↔
      k = min 1 s.table.ddwAllBlockCount ∧ Plays NoOverrun ops s := by
  induction ops generalizing s k with
  | nil =>
    rw [List.foldl_nil, LinkTable.countExact_iff hl hc]
    exact ⟨fun hkeq => ⟨hkeq, trivial⟩, fun hkeq => hkeq.1⟩
  | cons op ops ih =>
    obtain ⟨hcall, hne, hrest⟩ := hplays
    have hby := call_countedBy h hc (by omega) hcall hne
    have hall := (call_head h hcall hne.noNullValue).1
    rw [List.foldl_cons, ih (call_sound h hcall hne.noNullValue) (call_lastClear h hl hcall hne)
      (by rw [hall]; split <;> omega) hby hrest, hall]
    by_cases ho : s.NoOverrun op
    · rw [if_pos ho]
      exact and_congr_right fun _ => ⟨fun hp => ⟨hcall, ho, hp⟩, fun hp => hp.2.2⟩
    · obtain ⟨hpos, h2⟩ := overrun_excess hc ho
      rw [if_neg ho]
      exact iff_of_false (fun hkeq => by omega) (fun hp => ho hp.2.2.1)

/-- A table without blocks counts all of the positions it does not have, and refuses every call
    that would change that. -/
theorem plays_refusing {ops : List LtOp} {s : LtState} (h : s.Refusing)
    (hall : s.table.ddwAllBlockCount = 2 ^ 64 - 1) (hplays : Plays NonEmpty ops s) :
    (ops.foldl exec s).table.CountExact ∧ Plays NoOverrun ops s := by
  induction ops generalizing s with
  | nil =>
    refine ⟨?_, trivial⟩
    have hfull : s.table.zeroLengthBlocks = Finset.Icc 1 s.table.ddwAllBlockCount :=
      Finset.filter_true_of_mem fun b _ => h.len b
    rw [List.foldl_nil, LinkTable.CountExact, hfull, Nat.card_Icc, hall, h.free,
      Nat.add_sub_cancel]
  | cons op ops ih =>
    obtain ⟨hcall, hne, hrest⟩ := hplays
    have hno : s.NoOverrun op := by
      cases op with
      | setData ddwPos data =>
        intro ho
        have hsmall := ho.2.2.2.2.1
        rw [hall] at hsmall
        omega
      | _ => trivial
    have hkeep : (s.exec op).table.ddwAllBlockCount = s.table.ddwAllBlockCount := by
      cases op with
      | setData ddwPos data =>
        obtain ⟨e, he, -⟩ := LinkTable.setData_refused ddwPos data h.free
        simp only [exec, he]
      | eraseData ddwPos => simp [Callable, handles, h.live] at hcall
      | setRecyclePoolSize sz =>
        simp only [exec, LinkTable.setRecyclePoolSize]
        split
        · rfl
        · rw [emptyRecyclePool_of_zero h.pool]
    obtain ⟨hexact, hplays'⟩ :=
      ih (call_refusing h (.call s op hcall hne)) (hkeep.trans hall) hrest
    exact ⟨hexact, hcall, hno, hplays'⟩

/-- **The free-block counter.**  In the state that a run has reached the counter is the number of
    blocks with length zero exactly when no `SetData` of the run has overrun. -/
theorem plays_countExact_iff {ddwBufferSize ddwBlockCount ddwBlockSize : Nat} {t : LinkTable}
    {ops : List LtOp} (hs : 9 ≤ ddwBlockSize ∧ ddwBlockSize < 2 ^ 16 + 8)
    (hc : ddwBlockCount ≤ 2 ^ 48)
    (h : LinkTable.init ddwBufferSize ddwBlockCount ddwBlockSize = .ok t)
    (hplays : Plays NonEmpty ops ⟨t, []⟩) :
    (ops.foldl exec ⟨t, []⟩).table.CountExact ↔ Plays NoOverrun ops ⟨t, []⟩ := by
  rcases Nat.eq_zero_or_pos ddwBlockCount with rfl | h0
  · obtain ⟨hexact, hno⟩ := plays_refusing (init_refusing h) (LinkTable.init_eq h).1 hplays
    exact iff_of_true hexact hno
  · have hlast : t.LastClear := LinkTable.init_len h _
    rw [plays_countedBy (s := ⟨t, []⟩) (LinkTable.init_sound h hs ⟨h0, hc⟩) hlast
      (Nat.le_refl _) (LinkTable.init_countedBy h h0) hplays]
    exact and_iff_right rfl

/-- Three values of one block, of which two are given up again. -/
theorem plays_countExact_eightBlocks :
    Plays NonEmpty [.setData 0 [1], .setData 0 [2], .setData 1 [3], .eraseData 2]
        ⟨eightBlocks, []⟩ ∧
      (List.foldl exec ⟨eightBlocks, []⟩
        [.setData 0 [1], .setData 0 [2], .setData 1 [3], .eraseData 2]).table.CountExact :=
  ⟨by decide +kernel, (plays_countExact_iff (show 9 ≤ 32 ∧ 32 < 2 ^ 16 + 8 by decide) (by decide)
    init_eightBlocks (by decide +kernel)).mpr (by decide +kernel)⟩

/-- **The counter one short.**  49 bytes need three blocks and the counter says three, but only `1`
    and `2` can be handed out: `1` is filled twice.  The counter is `0`, position `3` is empty. -/
theorem overrun_countShort : ∃ t s, LinkTable.init 2000000 4 32 = .ok t ∧
    Calls NonEmpty ⟨t, []⟩ s ∧ s.table.ddwFreeBlockCount = 0 ∧ s.table.zeroLengthBlocks = {3} ∧
    ¬ s.table.CountExact := by
  refine ⟨fourBlocks, exec ⟨fourBlocks, []⟩ (.setData 0 (List.replicate 49 7)), init_fourBlocks,
    Relation.ReflTransGen.single (.call _ _ (.inl rfl) (List.cons_ne_nil _ _)), ?_, ?_, ?_⟩
  · decide +kernel
  · decide +kernel
  · decide +kernel

end LtState

end MysqlProxy
