/-
  Where the blocks of a `LinkTable` go: no leak, and no refusal while there is room.

  Two questions about whole runs.
  * Is every used block on the chain of ONE live handle or ring entry (`LtState.NoLeak`)?
  * Does `SetData` find the blocks it needs whenever enough of them are empty?

  Both are answered by what happens to `emptyBlocks`.  The free count stays within one of the
  number of empty blocks in EVERY run (`LinkTable.Counted`), so the first test of `GetEmptyBlock`
  never lies by more than that.  What can go wrong is the free list.  The scan takes blocks that
  are still on the list without unlinking them; when such a block is freed again it is pushed in
  front of a list that already leads to it, and the list comes back to itself.  A request that
  walks round that ring (`LinkTable.Cycles`) is promised more blocks than there are: `SetData`
  fails with `-9` after it has filled those it got, and nobody owns them.
-/
import MysqlProxy.Ht.LinkTableCalls

namespace MysqlProxy

namespace LinkTable

/-! ## The free count -/

/-- The free count is the number of empty blocks, or one more. -/
def Counted (t : LinkTable) : Prop :=
  t.emptyBlocks.card ≤ t.ddwFreeBlockCount ∧ t.ddwFreeBlockCount ≤ t.emptyBlocks.card + 1

/-- The free count is `k` more than the number of empty blocks. -/
def CountedBy (k : Nat) (t : LinkTable) : Prop := t.ddwFreeBlockCount = t.emptyBlocks.card + k

theorem CountedBy.counted {k : Nat} {t : LinkTable} (h : CountedBy k t) (hk : k ≤ 1) :
    Counted t := by
  rw [CountedBy] at h
  exact ⟨by omega, by omega⟩

/-- By how much the count is too high. -/
theorem Counted.exists_countedBy {t : LinkTable} (h : Counted t) : ∃ k ≤ 1, CountedBy k t := by
  obtain ⟨hlo, hhi⟩ := h
  exact ⟨t.ddwFreeBlockCount - t.emptyBlocks.card, by omega, by rw [CountedBy]; omega⟩

theorem emptyBlocks_card_le (t : LinkTable) : t.emptyBlocks.card ≤ t.ddwAllBlockCount := by
  calc t.emptyBlocks.card ≤ (Finset.Ioo 0 t.ddwAllBlockCount).card :=
        Finset.card_le_card (Finset.filter_subset _ _)
    _ ≤ t.ddwAllBlockCount := by rw [Nat.card_Ioo]; omega

theorem CountedBy.congr {k : Nat} {t t' : LinkTable} (h : CountedBy k t)
    (hE : t'.emptyBlocks = t.emptyBlocks) (hF : t'.ddwFreeBlockCount = t.ddwFreeBlockCount) :
    CountedBy k t' := by
  rw [CountedBy, hE, hF]
  exact h

/-- Filling different empty blocks counts each of them once. -/
theorem CountedBy.fillPath {k : Nat} {t t1 : LinkTable} {l : List Nat} {data : List UInt8}
    (hc : CountedBy k t) (hf : Fits t) (hrel : Relinked t t1) (hnd : l.Nodup)
    (hl : ∀ b ∈ l, t.Empty b)
    (hlen : l.length * t.BLOCK_DATA_LEN < data.length + t.BLOCK_DATA_LEN) :
    CountedBy k (fillPath l data t1) := by
  rw [CountedBy] at hc
  have hsub : l.toFinset ⊆ t.emptyBlocks :=
    fun b hb => mem_emptyBlocks.mpr (hl b (List.mem_toFinset.mp hb))
  have hcard : l.length ≤ t.emptyBlocks.card := by
    rw [← List.toFinset_card_of_nodup hnd]
    exact Finset.card_le_card hsub
  rw [CountedBy, emptyBlocks_fillPath hf hrel hlen, Finset.card_sdiff_of_subset hsub,
    List.toFinset_card_of_nodup hnd,
    ddwFreeBlockCount_fillPath (by rw [hrel.free]; omega), hrel.free]
  omega

/-- A path that overran has taken every empty block, one of them twice. -/
theorem CountedBy.fillPath_overrun {k : Nat} {t t1 : LinkTable} {l : List Nat} {data : List UInt8}
    {p q : Nat} (hc : CountedBy k t) (hf : Fits t) (hrel : Relinked t t1)
    (h : HandedOut t t1 (t.blockCount data.length) p l q)
    (ho : t.Overruns (t.blockCount data.length))
    (hlen : l.length * t.BLOCK_DATA_LEN < data.length + t.BLOCK_DATA_LEN) :
    CountedBy (k - 1) (LinkTable.fillPath l data t1) := by
  rw [CountedBy] at hc
  have hcount := (h.twice ho).1
  have hfree : (t.blockCount data.length : Int) ≤ t.ddwFreeBlockCount :=
    Int.le_trans ho.2.1 (int32_le (by omega))
  have hE := ho.2.2.2.2.2.2
  have hnone : t.emptyBlocks \ l.toFinset = ∅ := by
    rw [Finset.sdiff_eq_empty_iff_subset]
    exact fun b hb => List.mem_toFinset.mpr (h.all ho b (mem_emptyBlocks.mp hb))
  rw [CountedBy, emptyBlocks_fillPath hf hrel hlen, hnone, Finset.card_empty,
    ddwFreeBlockCount_fillPath (by rw [hrel.free]; omega), hrel.free]
  omega

theorem HandedOut.mul_lt {t t1 : LinkTable} {data : List UInt8} {p q : Nat} {l : List Nat}
    (hf : Fits t) (h : HandedOut t t1 (t.blockCount data.length) p l q) :
    l.length * t.BLOCK_DATA_LEN < data.length + t.BLOCK_DATA_LEN :=
  Nat.lt_of_le_of_lt (Nat.mul_le_mul_right _ h.le) (blockCount_bounds hf.bdl_pos).2

/-- Storing a value keeps the count as it is, whatever comes of it; only an overrun brings it down
    by the block it takes twice. -/
theorem CountedBy.store {k : Nat} {t : LinkTable} {data : List UInt8} (hc : CountedBy k t)
    (hf : Fits t) (hd : data ≠ []) :
    CountedBy (if t.Overruns (t.blockCount data.length) then k - 1 else k) (t.setData 0 data).2 := by
  have hout := setData_outcome 0 hf hd
  generalize t.setData 0 data = r at hout ⊢
  cases hout with
  | tooLarge hmax =>
    rw [if_neg (fun ho => absurd ho.1 (by omega))]
    exact hc
  | noSpace t1 hmax hget halloc =>
    rw [if_neg (halloc.error _ rfl).2.1]
    exact hc.congr halloc.relinked.emptyBlocks halloc.relinked.free
  | noBlocks t1 htiny hrel hcur hno =>
    rw [if_neg hno]
    exact hc.congr hrel.emptyBlocks hrel.free
  | shortList t1 p q l hrel hcur h hshort =>
    have hno : ¬ t.Overruns (t.blockCount data.length) := fun ho => by
      have := (h.twice ho).1
      omega
    rw [if_neg hno]
    exact hc.fillPath hf hrel (h.nodup hno) h.empty (h.mul_lt hf)
  | stored t1 p q l hrel hcur h hfull hmax =>
    have hfill : CountedBy (if t.Overruns (t.blockCount data.length) then k - 1 else k)
        (LinkTable.fillPath l data t1) := by
      by_cases ho : t.Overruns (t.blockCount data.length)
      · rw [if_pos ho]
        exact hc.fillPath_overrun hf hrel h ho (h.mul_lt hf)
      · rw [if_neg ho]
        exact hc.fillPath hf hrel (h.nodup ho) h.empty (h.mul_lt hf)
    exact hfill.congr (emptyBlocks_storePath q) rfl

/-- Freeing a chain of used blocks counts each of them once. -/
theorem CountedBy.free {k : Nat} {t : LinkTable} {l : List Nat} (hc : CountedBy k t) (hk : k ≤ 1)
    (hall : t.ddwAllBlockCount ≤ 2 ^ 48) (hnd : l.Nodup) (hl : ∀ b ∈ l, t.Used b) :
    CountedBy k (l.foldl pushFree t) := by
  rw [CountedBy] at hc
  have hdis : Disjoint t.emptyBlocks l.toFinset := by
    rw [Finset.disjoint_left]
    intro b hb hbl
    exact (hl b (List.mem_toFinset.mp hbl)).2.2 (mem_emptyBlocks.mp hb).2.2
  have hcard : (l.foldl pushFree t).emptyBlocks.card = t.emptyBlocks.card + l.length := by
    rw [emptyBlocks_foldl_pushFree hl, Finset.card_union_of_disjoint hdis,
      List.toFinset_card_of_nodup hnd]
  have hbound := emptyBlocks_card_le (l.foldl pushFree t)
  rw [hcard, (foldl_pushFree_head l t).1.all] at hbound
  rw [CountedBy, hcard, ddwFreeBlockCount_foldl_pushFree (by omega)]
  omega

theorem CountedBy.recycleBlock {k : Nat} {t : LinkTable} {p : Nat} {handles : List Nat}
    (hc : CountedBy k t) (hk : k ≤ 1) (hs : Sound t (p :: handles)) :
    CountedBy k (t.recycleBlock p) := by
  obtain ⟨l, hl, hused, heq, -, -⟩ := recycleBlock_spec hs.ring hs.isolated
  rw [heq]
  exact CountedBy.free (t := t.parkBlock p) hc hk hs.all_le hl.nodup hused

theorem CountedBy.emptyRecyclePool {k : Nat} {t : LinkTable} {handles : List Nat}
    (hc : CountedBy k t) (hk : k ≤ 1) (hs : Sound t handles) :
    CountedBy k t.emptyRecyclePool := by
  have hfold : CountedBy k ((List.range t.dwRecyclePoolSize).foldl emptySlot t) ∧
      ((List.range t.dwRecyclePoolSize).foldl emptySlot t).ddwAllBlockCount ≤ 2 ^ 48 := by
    refine foldl_emptySlot_keeps (P := fun t' => CountedBy k t' ∧ t'.ddwAllBlockCount ≤ 2 ^ 48)
      hs.ring hs.isolated ⟨hc, hs.all_le⟩ ?_
    rintro t' i hr hi hiso ⟨hc', hall'⟩
    obtain ⟨l, hl, hused, heq⟩ := emptySlot_spec hr hi hiso
    obtain ⟨-, -, hhead, -, -⟩ := emptySlot_isolated hr hi hiso
    refine ⟨?_, by rw [hhead.all]; exact hall'⟩
    rw [heq]
    exact CountedBy.free hc' hk hall' hl.nodup hused
  exact hfold.1

/-- The count of a new table is one too high. -/
theorem init_countedBy {ddwBufferSize ddwBlockCount ddwBlockSize : Nat} {t : LinkTable}
    (h : init ddwBufferSize ddwBlockCount ddwBlockSize = .ok t) (hc : 0 < ddwBlockCount) :
    CountedBy (min 1 t.ddwAllBlockCount) t := by
  obtain ⟨hall, hfree, -⟩ := init_eq h
  rw [dec64_of_pos hc] at hall hfree
  have hE : t.emptyBlocks = Finset.Ioo 0 t.ddwAllBlockCount :=
    Finset.filter_true_of_mem fun b _ => init_len h b
  rw [CountedBy, hE, Nat.card_Ioo, hall, hfree]
  omega

/-! ## Completeness of the allocation -/

section Complete

variable {t : LinkTable} {data : List UInt8}

/-- The branch marked `bug` is taken exactly when the free list goes round. -/
theorem setData_notEnough_iff (ddwPos : Nat) (hf : Fits t) (hd : data ≠ []) :
    retCode (t.setData ddwPos data).1 = -9 ↔ t.Cycles (t.blockCount data.length) := by
  have hpos := blockCount_pos (t := t) hf.bdl_pos (List.length_pos_iff.mpr hd)
  have hout := setData_outcome ddwPos hf hd
  generalize t.setData ddwPos data = r at hout ⊢
  cases hout with
  | tooLarge hmax =>
    refine iff_of_false (by simp [retCode, LtError.code]) fun hcyc => ?_
    have := hcyc.1
    omega
  | noSpace t1 hmax hget halloc =>
    exact iff_of_false (by simp [retCode, LtError.code]) (halloc.error _ rfl).2.2
  | noBlocks t1 htiny hrel hcur hno =>
    refine iff_of_false (by simp [retCode, LtError.code]) fun hcyc => ?_
    -- a path of empty blocks needs a usable position
    obtain ⟨l, q, -, hlen, hemp⟩ := hcyc.2.2.1
    obtain ⟨b, hb⟩ : ∃ b, b ∈ l := List.exists_mem_of_length_pos (by omega)
    obtain ⟨h0, h1, -⟩ := hemp b hb
    omega
  | shortList t1 p q l hrel hcur h hshort =>
    exact iff_of_true (by simp [retCode, LtError.code]) (h.cycles.mp hshort)
  | stored t1 p q l hrel hcur h hfull hmax =>
    refine iff_of_false (by simp [retCode]) fun hcyc => ?_
    have := h.cycles.mpr hcyc
    omega

/-- With enough empty blocks `SetData` succeeds, unless the free list goes round. -/
theorem setData_ok_iff (ddwPos : Nat) (hf : Fits t) (hc : Counted t)
    (h31 : t.ddwAllBlockCount < 2 ^ 31) (hd : data ≠ [])
    (hmax : t.blockCount data.length ≤ MAX_BLOCK_COUNT)
    (hroom : t.blockCount data.length ≤ t.emptyBlocks.card) :
    retCode (t.setData ddwPos data).1 = 0 ↔ ¬ t.Cycles (t.blockCount data.length) := by
  have hpos := blockCount_pos (t := t) hf.bdl_pos (List.length_pos_iff.mpr hd)
  have hcard := emptyBlocks_card_le t
  have hfree : int32 t.ddwFreeBlockCount = t.ddwFreeBlockCount := by
    have := hc.2
    by_cases hone : t.ddwAllBlockCount = 0
    · omega
    · have hlt : t.emptyBlocks.card < t.ddwAllBlockCount := by
        have hle : t.emptyBlocks.card ≤ (Finset.Ioo 0 t.ddwAllBlockCount).card :=
          Finset.card_le_card (Finset.filter_subset _ _)
        rw [Nat.card_Ioo] at hle
        omega
      exact int32_of_lt (by omega) (by omega)
  have hout := setData_outcome ddwPos hf hd
  generalize t.setData ddwPos data = r at hout ⊢
  cases hout with
  | tooLarge hmax' => omega
  | noSpace t1 _ hget halloc =>
    have hlo := hc.1
    have := halloc.full _ rfl hmax (by rw [hfree]; omega) h31
    omega
  | noBlocks t1 htiny hrel hcur hno =>
    rw [emptyBlocks_tiny htiny, Finset.card_empty] at hroom
    omega
  | shortList t1 p q l hrel hcur h hshort =>
    exact iff_of_false (by simp [retCode, LtError.code]) (fun hno => hno (h.cycles.mp hshort))
  | stored t1 p q l hrel hcur h hfull _ =>
    refine iff_of_true (by simp [retCode]) fun hcyc => ?_
    have := h.cycles.mpr hcyc
    omega

end Complete

/-! ## Owners -/

/-- Every used block is on the chain of a live handle or of a ring entry. -/
def Owned (t : LinkTable) (handles : List Nat) : Prop :=
  ∀ b, t.Used b → Covered t.next (handles ++ t.ring) b

theorem used_iff {t : LinkTable} {b : Nat} :
    t.Used b ↔ (0 < b ∧ b < t.ddwAllBlockCount) ∧ b ∉ t.emptyBlocks := by
  rw [mem_emptyBlocks, Used, Empty]
  constructor
  · rintro ⟨h0, h1, h2⟩
    exact ⟨⟨h0, h1⟩, fun he => h2 he.2.2⟩
  · rintro ⟨⟨h0, h1⟩, he⟩
    exact ⟨h0, h1, fun h2 => he ⟨h0, h1, h2⟩⟩

theorem Owned.mono {t : LinkTable} {handles handles' : List Nat} (h : Owned t handles)
    (hs : handles ++ t.ring ⊆ handles' ++ t.ring) : Owned t handles' :=
  fun b hb => covered_mono hs (h b hb)

section Owned

variable {t : LinkTable} {p : Nat} {handles : List Nat} {data : List UInt8}

/-- A call that is refused has filled nothing, unless the free list goes round. -/
theorem setData_error_relinked {e : LtError} {t' : LinkTable} {ddwPos : Nat} (hf : Fits t)
    (hd : data ≠ []) (hcyc : ¬ t.Cycles (t.blockCount data.length))
    (h : t.setData ddwPos data = (.error e, t')) : Relinked t t' := by
  have hout := setData_outcome ddwPos hf hd
  rw [h] at hout
  cases hout with
  | tooLarge hmax => exact Relinked.refl t
  | noSpace t1 hmax hget halloc => exact halloc.relinked
  | noBlocks t1 htiny hrel hcur hno => exact hrel
  | shortList t1 p q l hrel hcur hpath hshort => exact absurd (hpath.cycles.mp hshort) hcyc

theorem Owned.relinked {t' : LinkTable} (ho : Owned t handles) (hs : Sound t handles)
    (hrel : Relinked t t') (hcur : t'.CursorOk) : Owned t' handles := by
  intro b hb
  have hused : t.Used b := by
    rw [used_iff] at hb ⊢
    rw [hrel.all, hrel.emptyBlocks] at hb
    exact hb
  have hring : t'.ring = t.ring := by rw [LinkTable.ring, hrel.pool]; rfl
  rw [hring]
  exact (hrel.keepsUsed hcur).sound hs |>.2.covered (ho b hused)

/-- The blocks a value takes are on its chain. -/
theorem Owned.store {t' : LinkTable} (ho : Owned t handles) (hs : Sound t handles) (hd : data ≠ [])
    (hno : ¬ t.Overruns (t.blockCount data.length)) (h : t.setData 0 data = (.ok p, t')) :
    Owned t' (p :: handles) := by
  have hout := setData_outcome 0 hs.toFits hd
  rw [h] at hout
  cases hout with
  | stored t1 p q l hrel hcur hpath hfull hmax =>
    obtain ⟨c, hdone, hcl⟩ :=
      setDone_of_handedOut hs.toFits hd (hrel.keepsUsed hcur) hmax hpath hfull
    obtain rfl : c = l := hcl (hpath.nodup hno)
    have hkeep := (hdone.keeps.sound hs).2
    intro b hb
    rw [if_neg (by simp)] at hb ⊢
    have hring : (t1.storePath c q data).ring = t.ring := by
      rw [LinkTable.ring, hdone.keeps.pool]; rfl
    rw [hring]
    by_cases hbc : b ∈ c
    · exact ⟨p, List.mem_cons_self, c, hdone.chain, hbc⟩
    · have hused : t.Used b := by
        rw [used_iff] at hb ⊢
        rw [hdone.keeps.all, emptyBlocks_storePath,
          emptyBlocks_fillPath hs.toFits hrel (hpath.mul_lt hs.toFits), Finset.mem_sdiff,
          List.mem_toFinset] at hb
        exact ⟨hb.1, fun hE => hb.2 ⟨hE, hbc⟩⟩
      exact covered_mono (List.subset_cons_self p _) (hkeep.covered (ho b hused))

/-- Freeing the chain of one root leaves the blocks of all the others owned. -/
theorem owned_of_freed {l roots : List Nat} (hl : Chain t.next p l) (hu : ∀ b ∈ l, t.Used b)
    (hcov : ∀ b, t.Used b → Covered t.next (p :: roots) b)
    (hk : KeepsChains t (l.foldl pushFree t) roots) {b : Nat} (hb : (l.foldl pushFree t).Used b) :
    Covered (l.foldl pushFree t).next roots b := by
  rw [used_iff, emptyBlocks_foldl_pushFree hu, (foldl_pushFree_head l t).1.all, Finset.mem_union,
    List.mem_toFinset] at hb
  obtain ⟨hrange, hnot⟩ := hb
  obtain ⟨r, hr, l', hl', hbl'⟩ := hcov b (used_iff.mpr ⟨hrange, fun hE => hnot (.inl hE)⟩)
  refine hk.covered ⟨r, ?_, l', hl', hbl'⟩
  rcases List.mem_cons.mp hr with rfl | hr
  · exact absurd (hl'.unique hl ▸ hbl') fun hbl => hnot (.inr hbl)
  · exact hr

theorem Owned.recycleBlock (ho : Owned t (p :: handles)) (hs : Sound t (p :: handles)) :
    Owned (t.recycleBlock p) handles := by
  obtain ⟨l, hl, hused, heq, -, hk⟩ := recycleBlock_spec hs.ring hs.isolated
  have hring : (t.recycleBlock p).ring = (t.parkBlock p).ring := by
    rw [LinkTable.ring, (recycleBlock_head hs.ring hs.isolated).2.2.1]
    rfl
  intro b hb
  rw [hring]
  rw [heq] at hb hk ⊢
  refine owned_of_freed (t := t.parkBlock p) hl hused (fun x hx => ?_) hk hb
  exact covered_mono (parkBlock_perm hs.ring p handles).subset (ho x hx)

theorem Owned.emptySlot {i : Nat} (ho : Owned t handles) (hr : RingOk t)
    (hi : i < t.dwRecyclePoolSize) (hiso : t.Isolated handles) : Owned (t.emptySlot i) handles := by
  obtain ⟨l, hl, hused, heq⟩ := emptySlot_spec hr hi hiso
  have hperm := @clearSlot_perm _ handles _ hr hi
  have howns := (Owns.cons_zero hiso).perm hperm
  obtain ⟨l', hl', -, -, hdis⟩ := howns.head
  obtain rfl : l' = l := hl'.unique hl
  rw [heq]
  intro b hb
  refine owned_of_freed (t := t) hl hused (fun x hx => ?_) ?_ hb
  · exact covered_mono hperm.subset (covered_mono (List.subset_cons_self 0 _) (ho x hx))
  · exact fun c hc => foldl_pushFree_blocks t fun hcl => hdis c hcl hc

theorem Owned.emptyRecyclePool (ho : Owned t handles) (hs : Sound t handles) :
    Owned t.emptyRecyclePool handles :=
  foldl_emptySlot_keeps (P := fun t' => Owned t' handles) hs.ring hs.isolated ho
    fun hr hi hiso ho' => ho'.emptySlot hr hi hiso

end Owned

end LinkTable

namespace LtState

/-! ## Runs -/

/-- Every used block belongs to the chain of exactly one live handle or ring entry. -/
def NoLeak (s : LtState) : Prop :=
  ∀ b, s.table.Used b →
    ∃! i : Fin (s.handles ++ s.table.ring).length,
      ∃ l, Chain s.table.next ((s.handles ++ s.table.ring).get i) l ∧ b ∈ l

/-- If `SetData` fails, the empty blocks and their count are what they were. -/
def FailsClean (s : LtState) (ddwPos : Nat) (data : List UInt8) : Prop :=
  ∀ e t', s.table.setData ddwPos data = (.error e, t') →
    t'.emptyBlocks = s.table.emptyBlocks ∧ t'.ddwFreeBlockCount = s.table.ddwFreeBlockCount

/-- The call asks for blocks that are there: the scan does not take one twice, and the free list
    does not come back to itself within the request. -/
def Tidy (s : LtState) : LtOp → Prop
  | .setData _ data => data ≠ [] ∧ ¬ s.table.Overruns (s.table.blockCount data.length) ∧
      ¬ s.table.Cycles (s.table.blockCount data.length)
  | _ => True

instance (s : LtState) : (op : LtOp) → Decidable (s.Tidy op)
  | .setData _ data => inferInstanceAs (Decidable (data ≠ [] ∧ ¬ _ ∧ ¬ _))
  | .eraseData _ => inferInstanceAs (Decidable True)
  | .setRecyclePoolSize _ => inferInstanceAs (Decidable True)

theorem Tidy.noNullValue {s : LtState} {op : LtOp} (h : s.Tidy op) : s.NoNullValue op := by
  cases op with
  | setData ddwPos data => exact .inl h.1
  | _ => trivial

instance (s : LtState) : (op : LtOp) → Decidable (s.NoOverrun op)
  | .setData _ _ => inferInstanceAs (Decidable (¬ _))
  | .eraseData _ => inferInstanceAs (Decidable True)
  | .setRecyclePoolSize _ => inferInstanceAs (Decidable True)

/-- A call that does not overrun keeps the count as exact as it was. -/
theorem call_countedBy {k : Nat} {s : LtState} {op : LtOp} (h : s.table.Sound s.handles)
    (hc : LinkTable.CountedBy k s.table) (hk : k ≤ 1) (hcall : s.Callable op)
    (hne : s.NonEmpty op) :
    LinkTable.CountedBy (if s.NoOverrun op then k else k - 1) (s.exec op).table := by
  by_cases hw : Writes op
  · obtain ⟨-, hsound⟩ := stored_sound h hcall hne.noNullValue hw
    have hstored : LinkTable.CountedBy (if s.NoOverrun op then k else k - 1) (s.stored op) := by
      cases op with
      | setData ddwPos data =>
        have hstore := hc.store h.toFits hne
        rw [← ite_not] at hstore
        exact hstore
      | eraseData ddwPos =>
        rw [if_pos (show s.NoOverrun (.eraseData ddwPos) from trivial)]
        exact hc
      | setRecyclePoolSize sz => exact hw.elim
    rw [exec_table hw]
    cases hq : s.handsOver op with
    | none => exact hstored
    | some q =>
      rw [hq] at hsound
      exact hstored.recycleBlock (by split <;> omega) hsound
  · cases op with
    | setRecyclePoolSize sz =>
      rw [if_pos (show s.NoOverrun (.setRecyclePoolSize sz) from trivial)]
      simp only [exec, LinkTable.setRecyclePoolSize]
      split
      · exact hc
      · exact hc.emptyRecyclePool hk h
    | _ => exact absurd trivial hw

theorem call_counted {s : LtState} {op : LtOp} (h : s.table.Sound s.handles)
    (hc : s.table.Counted) (hcall : s.Callable op) (hne : s.NonEmpty op) :
    (s.exec op).table.Counted := by
  obtain ⟨k, hk, hby⟩ := hc.exists_countedBy
  exact (call_countedBy h hby hk hcall hne).counted (by split <;> omega)

/-- After a handle is dropped, what it owned is still owned through itself. -/
theorem owned_cons {s : LtState} {ddwPos : Nat} (h : s.table.Owned s.handles) :
    s.table.Owned (ddwPos :: (s.drop ddwPos).map Prod.fst) := by
  apply h.mono
  intro x hx
  rcases List.mem_append.mp hx with hx | hx
  · refine List.mem_append_left _ ?_
    obtain ⟨e, he, rfl⟩ := List.mem_map.mp hx
    by_cases heq : e.1 = ddwPos
    · rw [heq]
      exact List.mem_cons_self
    · refine List.mem_cons_of_mem _ (List.mem_map_of_mem (List.mem_filter.mpr ⟨he, ?_⟩))
      simpa using heq
  · exact List.mem_append_right _ hx

/-- The null handle owns nothing. -/
theorem owned_of_cons_zero {t : LinkTable} {handles : List Nat} (h : t.Owned (0 :: handles)) :
    t.Owned handles := by
  intro b hb
  obtain ⟨r, hmem, l, hl, hbl⟩ := h b hb
  rcases List.mem_cons.mp hmem with rfl | hmem
  · rw [hl.unique Chain.zero] at hbl
    simp at hbl
  · exact ⟨r, hmem, l, hl, hbl⟩

/-- After the first phase of a tidy call every used block has an owner. -/
theorem stored_owned {s : LtState} {op : LtOp} (h : s.table.Sound s.handles)
    (ho : s.table.Owned s.handles) (hcall : s.Callable op) (ht : s.Tidy op) (hw : Writes op) :
    (s.stored op).Owned (withHandle (s.handsOver op) (s.exec op).handles) := by
  cases op with
  | setData ddwPos data =>
    obtain ⟨hd, hno, hcyc⟩ := ht
    have hcons := sound_cons h hcall
    obtain ⟨hkeep, -⟩ := LinkTable.store_sound hcons (.inl hd)
    simp only [exec, stored, handsOver]
    rw [LinkTable.setData_eq s.table ddwPos data]
    rcases hr : s.table.setData 0 data with ⟨e | p, t'⟩
    · have := e.code_neg
      rw [hr] at hkeep
      rw [if_neg (by simp only [retCode]; omega)]
      exact ho.relinked h (LinkTable.setData_error_relinked h.toFits hd hcyc hr) hkeep.cursor
    · have hstore := LinkTable.Owned.store (owned_cons ho) hcons hd hno hr
      have hswap := hstore.mono ((List.Perm.swap ddwPos p _).append_right t'.ring).subset
      by_cases h0 : ddwPos = 0
      · rw [if_neg (by simp [h0])]
        exact owned_of_cons_zero (h0 ▸ hswap)
      · rw [if_pos ⟨h0, rfl⟩]
        exact hswap
  | eraseData ddwPos => exact owned_cons ho
  | setRecyclePoolSize sz => exact hw.elim

theorem call_owned {s : LtState} {op : LtOp} (h : s.table.Sound s.handles)
    (ho : s.table.Owned s.handles) (hcall : s.Callable op) (ht : s.Tidy op) :
    (s.exec op).table.Owned (s.exec op).handles := by
  by_cases hw : Writes op
  · obtain ⟨-, hsound⟩ := stored_sound h hcall ht.noNullValue hw
    have hstored := stored_owned h ho hcall ht hw
    rw [exec_table hw]
    cases hq : s.handsOver op with
    | none => rwa [hq] at hstored
    | some q =>
      rw [hq] at hsound hstored
      exact hstored.recycleBlock hsound
  · cases op with
    | setRecyclePoolSize sz =>
      simp only [exec, LinkTable.setRecyclePoolSize]
      split
      · exact ho
      · exact ho.emptyRecyclePool h
    | _ => exact absurd trivial hw

/-- A table initialised with no block at all: nothing is ever stored. -/
structure Refusing (s : LtState) : Prop where
  live : s.live = []
  free : s.table.ddwFreeBlockCount = 2 ^ 64 - 1
  pool : ∀ i, s.table.addwRecyclePool i = 0
  len : ∀ b, s.table.len b = 0

theorem call_refusing {allowed : LtState → LtOp → Prop} {s s' : LtState} (h : s.Refusing)
    (hs : Call allowed s s') : s'.Refusing := by
  obtain ⟨op, hcall, -⟩ := hs
  cases op with
  | setData ddwPos data =>
    obtain ⟨e, he, -⟩ := LinkTable.setData_refused ddwPos data h.free
    simpa only [exec, he] using h
  | eraseData ddwPos => simp [Callable, handles, h.live] at hcall
  | setRecyclePoolSize sz =>
    simp only [exec, LinkTable.setRecyclePoolSize]
    split
    · exact h
    · rw [emptyRecyclePool_of_zero h.pool]
      exact ⟨h.live, h.free, h.pool, h.len⟩

section Run

variable {ddwBufferSize ddwBlockCount ddwBlockSize : Nat} {t : LinkTable} {s : LtState}

theorem init_refusing (h : LinkTable.init ddwBufferSize 0 ddwBlockSize = .ok t) :
    Refusing ⟨t, []⟩ := by
  obtain ⟨-, hfree, -, -, -, hzero⟩ := LinkTable.init_eq h
  exact ⟨rfl, by rw [hfree]; rfl, hzero, LinkTable.init_len h⟩

/-- **No leak.**  In every run whose requests are tidy every used block has exactly one owner, and a
    `SetData` that fails leaves the empty blocks and the free count as they were. -/
theorem run_noLeak (hs : 9 ≤ ddwBlockSize ∧ ddwBlockSize < 2 ^ 16 + 8)
    (hc : ddwBlockCount ≤ 2 ^ 48)
    (h : LinkTable.init ddwBufferSize ddwBlockCount ddwBlockSize = .ok t)
    (hrun : Calls Tidy ⟨t, []⟩ s) :
    s.NoLeak ∧ ∀ ddwPos data, s.Tidy (.setData ddwPos data) → s.FailsClean ddwPos data := by
  rcases Nat.eq_zero_or_pos ddwBlockCount with rfl | h0
  · have href := run_invariant hrun (init_refusing h) call_refusing
    refine ⟨fun b hb => absurd (href.len b) hb.2.2, fun ddwPos data _ e t' heq => ?_⟩
    obtain ⟨e', he', -⟩ := LinkTable.setData_refused ddwPos data href.free
    obtain rfl : t' = s.table := (Prod.mk.inj (heq.symm.trans he')).2
    exact ⟨rfl, rfl⟩
  · have hstart : (LtState.table ⟨t, []⟩).Sound (handles ⟨t, []⟩) ∧
        (LtState.table ⟨t, []⟩).Owned (handles ⟨t, []⟩) :=
      ⟨LinkTable.init_sound h hs ⟨h0, hc⟩, fun b hb => absurd (LinkTable.init_len h b) hb.2.2⟩
    obtain ⟨hsound, howned⟩ := run_invariant (I := fun s => s.table.Sound s.handles ∧
      s.table.Owned s.handles) hrun hstart fun hinv hstep => by
        obtain ⟨op, hcall, htidy⟩ := hstep
        exact ⟨call_sound hinv.1 hcall htidy.noNullValue, call_owned hinv.1 hinv.2 hcall htidy⟩
    refine ⟨fun b hb => Owns.existsUnique hsound.isolated (howned b hb), ?_⟩
    intro ddwPos data htidy e t' heq
    have hrel := LinkTable.setData_error_relinked hsound.toFits htidy.1 htidy.2.2 heq
    exact ⟨hrel.emptyBlocks, hrel.free⟩

/-- **Completeness.**  In every state of every run, a value for which enough blocks are empty is
    stored exactly when the free list does not come back to itself within the request; and that is
    the only way into the branch marked `bug`. -/
theorem run_setData_ok_iff (hs : 9 ≤ ddwBlockSize ∧ ddwBlockSize < 2 ^ 16 + 8)
    (hc : ddwBlockCount < 2 ^ 31)
    (h : LinkTable.init ddwBufferSize ddwBlockCount ddwBlockSize = .ok t)
    (hrun : Calls NonEmpty ⟨t, []⟩ s) (ddwPos : Nat) (data : List UInt8) (hd : data ≠ []) :
    (s.table.blockCount data.length ≤ MAX_BLOCK_COUNT →
      s.table.blockCount data.length ≤ s.table.emptyBlocks.card →
      (retCode (s.table.setData ddwPos data).1 = 0 ↔
        ddwBlockCount ≠ 0 ∧ ¬ s.table.Cycles (s.table.blockCount data.length))) ∧
    (retCode (s.table.setData ddwPos data).1 = -9 ↔
      s.table.Cycles (s.table.blockCount data.length)) := by
  rcases Nat.eq_zero_or_pos ddwBlockCount with rfl | h0
  · have href := run_invariant hrun (init_refusing h) call_refusing
    obtain ⟨e, he, hcode⟩ := LinkTable.setData_refused ddwPos data href.free
    have hneg : ¬ s.table.Cycles (s.table.blockCount data.length) := by
      intro hcyc
      have hfree := hcyc.2.1
      rw [href.free, show int32 ((2 ^ 64 - 1 : Nat) : Int) = -1 by decide] at hfree
      omega
    have hret : retCode (s.table.setData ddwPos data).1 = -2 ∨
        retCode (s.table.setData ddwPos data).1 = -100 := by
      rw [he]
      rcases hcode with rfl | rfl
      · exact .inl rfl
      · exact .inr rfl
    exact ⟨fun _ _ => iff_of_false (by omega) (by simp), iff_of_false (by omega) hneg⟩
  · have hall : t.ddwAllBlockCount < 2 ^ 31 := by
      rw [(LinkTable.init_eq h).1, dec64_of_pos h0]
      omega
    have hstart : (LtState.table ⟨t, []⟩).Sound (handles ⟨t, []⟩) ∧
        (LtState.table ⟨t, []⟩).Counted ∧ (LtState.table ⟨t, []⟩).ddwAllBlockCount < 2 ^ 31 :=
      ⟨LinkTable.init_sound h hs ⟨h0, by omega⟩, (LinkTable.init_countedBy h h0).counted (by omega), hall⟩
    obtain ⟨hsound, hcount, h31⟩ := run_invariant (I := fun s => s.table.Sound s.handles ∧
      s.table.Counted ∧ s.table.ddwAllBlockCount < 2 ^ 31) hrun hstart fun hinv hstep => by
        obtain ⟨hsnd, hcnt, hlt⟩ := hinv
        obtain ⟨op, hcall, hne⟩ := hstep
        refine ⟨call_sound hsnd hcall hne.noNullValue, call_counted hsnd hcnt hcall hne, ?_⟩
        rw [(call_head hsnd hcall hne.noNullValue).1]
        exact hlt
    refine ⟨fun hmax hroom => ?_, LinkTable.setData_notEnough_iff ddwPos hsound.toFits hd⟩
    rw [LinkTable.setData_ok_iff ddwPos hsound.toFits hcount h31 hd hmax hroom]
    exact ⟨fun hno => ⟨by omega, hno⟩, fun hno => hno.2⟩

end Run

/-! ## The free list that comes back to itself -/

/-- The table that `Init` makes of a buffer with eight blocks of 32 bytes: positions `1` to `6` are
    usable. -/
def eightBlocks : LinkTable where
  ddwAllBlockCount := 7
  ddwFreeBlockCount := 7
  ddwBlockSize := 32
  ddwLastEmpty := 1
  ddwFirstFreePos := 0
  ddwRecycleIndex := 0
  dwRecyclePoolSize := 100
  addwRecyclePool := fun _ => 0
  blocks := fun _ => ⟨0, 0, List.replicate 24 0⟩

theorem init_eightBlocks : LinkTable.init 2000000 8 32 = .ok eightBlocks := rfl

/-- Four values of one block; the second and the first are freed, so the list is `1, 2`.  Three
    blocks are too many for it: the scan takes `5, 6, 1`, and the list still starts at `1`.  When
    the three are freed, `1` is pushed in front of itself. -/
def roundOps : List LtOp :=
  [.setData 0 [1], .setData 0 [2], .setData 0 [3], .setData 0 [4], .eraseData 2, .eraseData 1,
    .setRecyclePoolSize 100, .setData 0 (List.replicate 49 5), .eraseData 1,
    .setRecyclePoolSize 100]

/-- The state after these calls: four empty blocks, and a free list `5, 6, 1, 1, ..`. -/
def roundState : LtState := roundOps.foldl exec ⟨eightBlocks, []⟩

theorem calls_roundState : Calls NonEmpty ⟨eightBlocks, []⟩ roundState :=
  Plays.calls (by decide +kernel)

/-- A value of four blocks. -/
def fourBlockValue : List UInt8 := List.replicate 73 9

/-- .. and after the call that stores it. -/
def leakState : LtState :=
  (roundOps ++ [LtOp.setData 0 fourBlockValue]).foldl exec ⟨eightBlocks, []⟩

theorem leakState_eq : leakState = roundState.exec (.setData 0 fourBlockValue) := by
  simp only [leakState, roundState, List.foldl_append, List.foldl_cons, List.foldl_nil]

theorem leakState_sound : leakState.table.Sound leakState.handles := by
  refine run_sound init_eightBlocks (by decide) (by decide) ?_
  have hcalls : Calls NonEmpty ⟨eightBlocks, []⟩ leakState := Plays.calls (by decide +kernel)
  refine Relation.ReflTransGen.mono ?_ _ _ hcalls
  rintro a b ⟨op, hcall, hne⟩
  exact .call a op hcall hne.noNullValue

/-- The chains that are left are those of the handles `3` and `4`. -/
theorem leakState_roots {r : Nat} (hr : r ∈ leakState.handles ++ leakState.table.ring) :
    r = 4 ∨ r = 3 ∨ r = 0 := by
  rcases List.mem_append.mp hr with hr | hr
  · rw [show leakState.handles = [4, 3] by decide +kernel] at hr
    simp only [List.mem_cons, List.not_mem_nil, or_false] at hr
    omega
  · obtain ⟨i, -, rfl⟩ := mem_slots.mp hr
    rcases Nat.lt_or_ge i 100 with hi | hi
    · have hfirst : ∀ i < 100, leakState.table.addwRecyclePool i = 0 := by decide +kernel
      exact .inr (.inr (hfirst i hi))
    · have hsize : leakState.table.dwRecyclePoolSize = 100 := by decide +kernel
      exact .inr (.inr (leakState_sound.ring.rest i (hsize ▸ hi)))

/-- A value that fits: nothing leaks. -/
theorem run_noLeak_oneValue :
    (exec ⟨eightBlocks, []⟩ (.setData 0 [7])).live = [(1, [7])] ∧
      (exec ⟨eightBlocks, []⟩ (.setData 0 [7])).NoLeak := by
  refine ⟨by decide +kernel, ?_⟩
  exact (run_noLeak (show 9 ≤ 32 ∧ 32 < 2 ^ 16 + 8 by decide) (by decide) init_eightBlocks
    (@Plays.calls _ [.setData 0 [7]] _ (by decide +kernel))).1

/-- **The leak.**  73 bytes need four blocks, and four are empty.  The list seems to have them, but
    it is `5, 6, 1, 1`: `SetData` fills three, fails, and nobody owns them. -/
theorem cycle_leaks : ∃ t s, LinkTable.init 2000000 8 32 = .ok t ∧ Calls NonEmpty ⟨t, []⟩ s ∧
    retCode (s.table.setData 0 fourBlockValue).1 = -9 ∧ ¬ s.FailsClean 0 fourBlockValue ∧
    ¬ (s.exec (.setData 0 fourBlockValue)).NoLeak := by
  have hcode : retCode (roundState.table.setData 0 fourBlockValue).1 = -9 := by decide +kernel
  have hfree : roundState.table.ddwFreeBlockCount = 5 ∧
      (roundState.table.setData 0 fourBlockValue).2.ddwFreeBlockCount = 2 := by decide +kernel
  refine ⟨eightBlocks, roundState, init_eightBlocks, calls_roundState, hcode, ?_, ?_⟩
  · intro hclean
    rcases hr : roundState.table.setData 0 fourBlockValue with ⟨e | p, t'⟩
    · rw [hr] at hfree
      have hsame := (hclean e t' hr).2
      rw [hfree.1, hfree.2] at hsame
      exact absurd hsame (by decide)
    · rw [hr] at hcode
      exact absurd hcode (by simp [retCode])
  · rw [← leakState_eq]
    intro hno
    have hused : leakState.table.Used 5 := by
      refine ⟨by decide, ?_, ?_⟩ <;> decide +kernel
    have hnext : leakState.table.next 4 = 0 ∧ leakState.table.next 3 = 0 := by decide +kernel
    obtain ⟨i, ⟨l, hl, hmem⟩, -⟩ := hno 5 hused
    have hroot := leakState_roots (List.get_mem _ i)
    generalize (leakState.handles ++ leakState.table.ring).get i = r at hl hroot
    rcases hroot with rfl | rfl | rfl
    · rw [hl.unique (show Chain _ 4 [4] from ⟨rfl, by decide, hnext.1⟩)] at hmem
      simp at hmem
    · rw [hl.unique (show Chain _ 3 [3] from ⟨rfl, by decide, hnext.2⟩)] at hmem
      simp at hmem
    · rw [hl.unique Chain.zero] at hmem
      simp at hmem

/-- In the state that leaks four blocks a smaller value is still stored. -/
theorem run_setData_ok_iff_three :
    roundState.table.emptyBlocks.card = 4 ∧
      retCode (roundState.table.setData 0 (List.replicate 49 9)).1 = 0 := by
  refine ⟨by decide +kernel, ?_⟩
  refine (((run_setData_ok_iff (show 9 ≤ 32 ∧ 32 < 2 ^ 16 + 8 by decide) (by decide)
    init_eightBlocks calls_roundState 0 (List.replicate 49 9) (by decide)).1 ?_ ?_).mpr ⟨?_, ?_⟩)
  · decide +kernel
  · decide +kernel
  · decide
  · decide +kernel

/-- **The refusal.**  Four blocks are empty, the value needs four, and `SetData` ends in the branch
    marked `bug`. -/
theorem cycle_refuses : ∃ t s, LinkTable.init 2000000 8 32 = .ok t ∧ Calls NonEmpty ⟨t, []⟩ s ∧
    s.table.blockCount fourBlockValue.length = 4 ∧ s.table.emptyBlocks.card = 4 ∧
    retCode (s.table.setData 0 fourBlockValue).1 = -9 := by
  refine ⟨eightBlocks, roundState, init_eightBlocks, calls_roundState, ?_, ?_, ?_⟩
  · decide +kernel
  · decide +kernel
  · decide +kernel

end LtState

end MysqlProxy
