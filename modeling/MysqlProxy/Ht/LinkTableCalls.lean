/-
  Calls of a `LinkTable` with any data, and what they do to the EMPTY blocks.

  The runs of `LinkTableRun` keep to values that fit; here a client may also ask for too much (and
  is refused) or for nothing.  Whatever it asks for, the chains of its handles and of the ring
  stay apart (`call_sound`), as long as no call stores an EMPTY value while there is a free list.

  Of the blocks themselves a call does one of two things: filling a path takes its blocks out of
  `emptyBlocks` (`emptyBlocks_fillPath`), freeing a chain puts its blocks back
  (`emptyBlocks_foldl_pushFree`).  Both count in `ddwFreeBlockCount` as they go.
-/
import MysqlProxy.Ht.LinkTableRun

namespace MysqlProxy

namespace LinkTable

/-! ## The empty blocks -/

theorem emptyBlocks_congr {t t' : LinkTable} (hall : t'.ddwAllBlockCount = t.ddwAllBlockCount)
    (hlen : ∀ b, t'.len b = t.len b) : t'.emptyBlocks = t.emptyBlocks := by
  ext b
  rw [mem_emptyBlocks, mem_emptyBlocks, Empty, Empty, hall, hlen]

theorem Relinked.emptyBlocks {t t' : LinkTable} (h : Relinked t t') :
    t'.emptyBlocks = t.emptyBlocks := emptyBlocks_congr h.all h.len

section Fill

variable {t t1 : LinkTable} {l : List Nat} {data : List UInt8}

/-- Filling a path of empty blocks takes them. -/
theorem emptyBlocks_fillPath (hf : Fits t) (hrel : Relinked t t1)
    (hlen : l.length * t.BLOCK_DATA_LEN < data.length + t.BLOCK_DATA_LEN) :
    (fillPath l data t1).emptyBlocks = t.emptyBlocks \ l.toFinset := by
  have hbdl : t1.BLOCK_DATA_LEN = t.BLOCK_DATA_LEN := by rw [BLOCK_DATA_LEN, hrel.size]; rfl
  ext b
  rw [Finset.mem_sdiff, List.mem_toFinset, mem_emptyBlocks, mem_emptyBlocks, Empty, Empty,
    (fillPath_head l data t1).1.all, hrel.all]
  by_cases hb : b ∈ l
  · have hne : (fillPath l data t1).len b ≠ 0 :=
      fillPath_len (hbdl ▸ hf.bdl_lt) (hbdl ▸ hf.bdl_pos) (hbdl ▸ hlen) hb
    simp [hb, hne]
  · rw [len, fillPath_blocks data t1 hb]
    simp only [hb, not_false_eq_true, and_true]
    rw [← hrel.len b]
    rfl

/-- Each block filled is one less in the free count. -/
theorem ddwFreeBlockCount_fillPath {l : List Nat} : ∀ {data : List UInt8} {t : LinkTable},
    l.length ≤ t.ddwFreeBlockCount →
    (fillPath l data t).ddwFreeBlockCount = t.ddwFreeBlockCount - l.length := by
  induction l with
  | nil =>
    intro data t _
    rfl
  | cons b l ih =>
    intro data t h
    rw [List.length_cons] at h
    have hdec : (t.fillBlock b (data.take t.BLOCK_DATA_LEN)).ddwFreeBlockCount =
        t.ddwFreeBlockCount - 1 := dec64_of_pos (by omega)
    rw [fillPath, ih (by omega), hdec, List.length_cons]
    omega

theorem emptyBlocks_storePath (q : Nat) :
    (t1.storePath l q data).emptyBlocks = (fillPath l data t1).emptyBlocks :=
  emptyBlocks_congr rfl fun b => by rw [storePath, setNext_len, setNext_len]

end Fill

/-! ## Freeing -/

section Free

variable {t : LinkTable} {l : List Nat}

/-- Freeing a chain gives its blocks back. -/
theorem emptyBlocks_foldl_pushFree (hl : ∀ b ∈ l, t.Used b) :
    (l.foldl pushFree t).emptyBlocks = t.emptyBlocks ∪ l.toFinset := by
  ext b
  rw [Finset.mem_union, List.mem_toFinset, mem_emptyBlocks, mem_emptyBlocks, Empty, Empty,
    (foldl_pushFree_head l t).1.all]
  by_cases hb : b ∈ l
  · obtain ⟨h0, h1, -⟩ := hl b hb
    simp [hb, h0, h1, foldl_pushFree_len t hb]
  · rw [len, foldl_pushFree_blocks t hb]
    simp only [hb, or_false]
    rfl

/-- Each block freed is one more in the free count. -/
theorem ddwFreeBlockCount_foldl_pushFree {l : List Nat} : ∀ {t : LinkTable},
    t.ddwFreeBlockCount + l.length < 2 ^ 64 →
    (l.foldl pushFree t).ddwFreeBlockCount = t.ddwFreeBlockCount + l.length := by
  induction l with
  | nil =>
    intro t _
    rfl
  | cons b l ih =>
    intro t h
    rw [List.length_cons] at h
    have hinc : (t.pushFree b).ddwFreeBlockCount = t.ddwFreeBlockCount + 1 :=
      inc64_of_lt (by omega)
    rw [List.foldl_cons, ih (by omega), hinc, List.length_cons]
    omega

/-- A property that freeing one ring entry keeps survives emptying the ring. -/
theorem foldl_emptySlot_keeps {P : LinkTable → Prop} {handles : List Nat} (hr : RingOk t)
    (h : t.Isolated handles) (hP : P t)
    (hstep : ∀ {t' : LinkTable} {i : Nat}, RingOk t' → i < t'.dwRecyclePoolSize →
      t'.Isolated handles → P t' → P (t'.emptySlot i)) :
    P ((List.range t.dwRecyclePoolSize).foldl emptySlot t) := by
  have hfold : ∀ (is : List Nat) (t' : LinkTable), (∀ i ∈ is, i < t'.dwRecyclePoolSize) →
      RingOk t' → t'.Isolated handles → P t' → P (is.foldl emptySlot t') := by
    intro is
    induction is with
    | nil => exact fun _ _ _ _ hP' => hP'
    | cons i is ih =>
      intro t' his hr' h' hP'
      have hi := his i List.mem_cons_self
      obtain ⟨hiso, hring, hhead, -, -⟩ := emptySlot_isolated hr' hi h'
      refine ih (t'.emptySlot i) (fun j hj => ?_) hring hiso (hstep hr' hi h' hP')
      rw [hhead.poolSize]
      exact his j (List.mem_cons_of_mem i hj)
  exact hfold _ t (fun i hi => List.mem_range.mp hi) hr h hP

/-- One round of `EmptyRecyclePool` frees the chain of its entry, block by block. -/
theorem emptySlot_spec {handles : List Nat} {i : Nat} (hr : RingOk t) (hi : i < t.dwRecyclePoolSize)
    (h : t.Isolated handles) :
    ∃ l, Chain t.next (t.addwRecyclePool i) l ∧ (∀ b ∈ l, t.Used b) ∧
      t.emptySlot i = { l.foldl pushFree t with
        addwRecyclePool := Function.update t.addwRecyclePool i 0 } := by
  have hmem : t.addwRecyclePool i ∈ handles ++ t.ring :=
    List.mem_append_right handles (mem_slots.mpr ⟨i, Nat.lt_of_lt_of_le hi hr.le, rfl⟩)
  obtain ⟨l, hl, hlen, hused⟩ := Owns.chain h hmem
  refine ⟨l, hl, hused, ?_⟩
  rw [emptySlot]
  by_cases h0 : t.addwRecyclePool i = 0
  · have hl0 : Chain t.next 0 l := h0 ▸ hl
    rw [if_neg (by simpa using h0), hl0.unique Chain.zero, List.foldl_nil,
      Function.update_eq_self_iff.mpr h0.symm]
  · rw [if_pos h0, freeBlock_chain hl h0 hlen hused]
    simp only [(foldl_pushFree_head l t).2.1]

end Free

/-! ## Storing, then recycling -/

/-- `SetData` stores as it does for the null handle; only then is the old chain given up. -/
theorem setData_eq (t : LinkTable) (ddwPos : Nat) (data : List UInt8) :
    t.setData ddwPos data =
      match t.setData 0 data with
      | (.ok p, t') => (.ok p, if ddwPos ≠ 0 then t'.recycleBlock ddwPos else t')
      | (.error e, t') => (.error e, t') := by
  simp only [setData]
  by_cases hmax : t.blockCount data.length > MAX_BLOCK_COUNT
  · rw [if_pos hmax, if_pos hmax]
  rw [if_neg hmax, if_neg hmax]
  rcases t.getEmptyBlock (t.blockCount data.length) with ⟨e | p, t1⟩
  · rfl
  simp only
  rcases fillLoop data.length { ddwCurPos := 0, ddwNextPos := p, rest := data, table := t1 } with
    ⟨e | _, f⟩
  · rfl
  simp only
  by_cases hrest : f.rest = []
  · simp [hrest]
  · simp [hrest]

/-- An empty value takes no block: its handle is the head of the free list, whatever that is. -/
theorem setData_nil {t : LinkTable} (hpos : 0 < t.BLOCK_DATA_LEN) :
    t.setData 0 [] =
      if int32 t.ddwFreeBlockCount < 0 then (.error .notEnoughSpace, t)
      else (.ok t.ddwFirstFreePos, (t.setNext 0 0).setNext 0 t.ddwFirstFreePos) := by
  have hcount : t.blockCount 0 = 0 := Nat.div_eq_of_lt (by omega)
  have hmax : ¬ 0 > MAX_BLOCK_COUNT := Nat.not_lt_zero _
  rw [setData, List.length_nil, hcount]
  simp only [if_neg hmax]
  rw [getEmptyBlock]
  by_cases hneg : int32 t.ddwFreeBlockCount < 0
  · rw [if_pos (.inr (by simpa using hneg)), if_pos hneg]
  · rw [if_neg (by simpa using hneg), if_neg hneg]
    simp [takeFree, fillLoop]

/-- Storing a value keeps the chains apart and adds the new one. -/
theorem store_sound {t : LinkTable} {handles : List Nat} {data : List UInt8} (hs : Sound t handles)
    (hd : data ≠ [] ∨ t.ddwFirstFreePos = 0) :
    KeepsUsed t (t.setData 0 data).2 ∧
      ∀ p, (t.setData 0 data).1 = .ok p → Sound (t.setData 0 data).2 (p :: handles) := by
  by_cases hnil : data = []
  · have hfirst := hd.resolve_left (fun h => h hnil)
    have hkeep := ((Relinked.refl t).keepsUsed hs.cursor).setNext (b := 0)
      (fun hu => Nat.lt_irrefl 0 hu.1)
    rw [hnil, setData_nil hs.bdl_pos, hfirst]
    split
    · exact ⟨(Relinked.refl t).keepsUsed hs.cursor, fun p hp => by simp at hp⟩
    · have hkeep2 := (hkeep 0).setNext (fun hu => Nat.lt_irrefl 0 hu.1) 0
      refine ⟨hkeep2, fun p hp => ?_⟩
      obtain rfl : 0 = p := Except.ok.inj hp
      exact (hkeep2.sound hs).1.cons_zero
  · rcases setData_cases 0 hs.toFits hnil with ⟨e, t', heq, hf⟩ | ⟨p, c, t', heq, hdone⟩
    · rw [heq]
      exact ⟨hf.keeps, fun p hp => by simp at hp⟩
    · rw [heq, if_neg (by simp)]
      refine ⟨hdone.keeps, fun q hq => ?_⟩
      obtain rfl : p = q := Except.ok.inj hq
      exact hdone.sound hs

/-! ## Exchanging a handle -/

/-- The handle of a node is exchanged for `p`; the other handles keep their chains. -/
structure Exchanged (t : LinkTable) (handles : List Nat) (p : Nat) (t' : LinkTable) : Prop where
  valid : Valid t' (p :: handles)
  all : t'.ddwAllBlockCount = t.ddwAllBlockCount
  size : t'.ddwBlockSize = t.ddwBlockSize
  keeps : KeepsChains t t' handles

theorem Stored.exchanged {t t' : LinkTable} {handles : List Nat} {data : List UInt8} {p : Nat}
    (h : Stored t handles data p t') : Exchanged t handles p t' :=
  ⟨h.valid, h.all, h.size, h.keeps⟩

/-- An empty value gets no block that is not its own: the free list is empty, or the free count is
    negative as an `int` and the call is refused. -/
def NullFits (t : LinkTable) : Prop := t.ddwFirstFreePos = 0 ∨ int32 t.ddwFreeBlockCount < 0

instance (t : LinkTable) : Decidable t.NullFits := inferInstanceAs (Decidable (_ ∨ _))

/-- An empty value that is stored then has the null handle. -/
theorem setData_nil_exchanged {t t' : LinkTable} {ddwPos p : Nat} {handles : List Nat}
    (hv : Valid t (ddwPos :: handles)) (hfits : t.NullFits)
    (heq : t.setData ddwPos [] = (.ok p, t')) : p = 0 ∧ Exchanged t handles 0 t' := by
  have h0 : ¬ t.Used 0 := fun hu => Nat.lt_irrefl 0 hu.1
  rw [setData_eq, setData_nil hv.toGeometry.fits.bdl_pos] at heq
  by_cases hneg : int32 t.ddwFreeBlockCount < 0
  · rw [if_pos hneg] at heq
    simp at heq
  · have hfirst := hfits.resolve_right hneg
    have hkeep := ((((Relinked.refl t).keepsUsed hv.cursor).setNext h0 0).setNext h0 0)
    obtain ⟨hv', hk⟩ := hkeep.valid hv
    rw [if_neg hneg, hfirst] at heq
    obtain ⟨rfl, rfl⟩ : 0 = p ∧ _ = t' := by simpa using heq
    refine ⟨rfl, ?_⟩
    have hsub : handles ⊆ (ddwPos :: handles) ++ t.ring := fun x hx =>
      List.mem_append_left _ (List.mem_cons_of_mem ddwPos hx)
    by_cases hpos : ddwPos = 0
    · rw [if_pos hpos]
      exact ⟨hv'.tail.cons_zero, hkeep.all, hkeep.size, hk.mono hsub⟩
    · rw [if_neg hpos]
      obtain ⟨hv2, hk2, hhead⟩ := hv'.recycleBlock
      exact ⟨hv2.cons_zero, hhead.all.trans hkeep.all, hhead.size.trans hkeep.size,
        (hk.mono hsub).trans hk2⟩

end LinkTable

namespace LtState

/-! ## Calls -/

/-- The handles a client may use: live ones, and for `SetData` the null handle. -/
def Callable (s : LtState) : LtOp → Prop
  | .setData ddwPos _ => ddwPos = 0 ∨ ddwPos ∈ s.handles
  | .eraseData ddwPos => ddwPos ∈ s.handles
  | .setRecyclePoolSize _ => True

instance (s : LtState) : (op : LtOp) → Decidable (s.Callable op)
  | .setData ddwPos _ => inferInstanceAs (Decidable (ddwPos = 0 ∨ ddwPos ∈ s.handles))
  | .eraseData ddwPos => inferInstanceAs (Decidable (ddwPos ∈ s.handles))
  | .setRecyclePoolSize _ => inferInstanceAs (Decidable True)

/-- One call that also meets `allowed`. -/
inductive Call (allowed : LtState → LtOp → Prop) : LtState → LtState → Prop where
  | call (s : LtState) (op : LtOp) : s.Callable op → allowed s op → Call allowed s (s.exec op)

/-- The states reached by such calls. -/
def Calls (allowed : LtState → LtOp → Prop) : LtState → LtState → Prop :=
  Relation.ReflTransGen (Call allowed)

/-- Only non-empty values are stored. -/
def NonEmpty (_ : LtState) : LtOp → Prop
  | .setData _ data => data ≠ []
  | _ => True

/-- An empty value is stored only while there is no free list. -/
def NoNullValue (s : LtState) : LtOp → Prop
  | .setData _ data => data ≠ [] ∨ s.table.ddwFirstFreePos = 0
  | _ => True

theorem NonEmpty.noNullValue {s : LtState} {op : LtOp} (h : s.NonEmpty op) : s.NoNullValue op := by
  cases op with
  | setData ddwPos data => exact .inl h
  | _ => trivial

instance (s : LtState) : (op : LtOp) → Decidable (s.NonEmpty op)
  | .setData _ data => inferInstanceAs (Decidable (data ≠ []))
  | .eraseData _ => inferInstanceAs (Decidable True)
  | .setRecyclePoolSize _ => inferInstanceAs (Decidable True)

instance (s : LtState) : (op : LtOp) → Decidable (s.NoNullValue op)
  | .setData _ data => inferInstanceAs (Decidable (data ≠ [] ∨ s.table.ddwFirstFreePos = 0))
  | .eraseData _ => inferInstanceAs (Decidable True)
  | .setRecyclePoolSize _ => inferInstanceAs (Decidable True)

/-- The calls `ops`, one after the other, are all allowed. -/
def Plays (allowed : LtState → LtOp → Prop) : List LtOp → LtState → Prop
  | [], _ => True
  | op :: ops, s => s.Callable op ∧ allowed s op ∧ Plays allowed ops (s.exec op)

instance (allowed : LtState → LtOp → Prop) [∀ s op, Decidable (allowed s op)] :
    (ops : List LtOp) → (s : LtState) → Decidable (Plays allowed ops s)
  | [], _ => inferInstanceAs (Decidable True)
  | op :: ops, s =>
    haveI := instDecidablePlays allowed ops (s.exec op)
    inferInstanceAs (Decidable (_ ∧ _ ∧ _))

theorem Plays.calls {allowed : LtState → LtOp → Prop} {ops : List LtOp} {s : LtState}
    (h : Plays allowed ops s) : Calls allowed s (ops.foldl exec s) := by
  induction ops generalizing s with
  | nil => exact .refl
  | cons op ops ih =>
    obtain ⟨hcall, hal, hrest⟩ := h
    exact .head (.call s op hcall hal) (ih hrest)

/-- Dropping a handle leaves a part of the others behind. -/
theorem drop_subperm {s : LtState} {ddwPos : Nat} (h : ddwPos ∈ s.handles) :
    (ddwPos :: (s.drop ddwPos).map Prod.fst).Subperm s.handles := by
  have hfilter : (s.drop ddwPos).map Prod.fst = s.handles.filter (· ≠ ddwPos) := by
    rw [handles, List.filter_map, drop]
    rfl
  rw [hfilter]
  refine (List.Sublist.subperm (List.Sublist.cons_cons ddwPos ?_)).trans
    (List.perm_cons_erase h).symm.subperm
  -- the first occurrence is dropped either way
  induction s.handles with
  | nil => exact List.Sublist.slnil
  | cons x l ih =>
    by_cases hx : x = ddwPos
    · subst hx
      rw [List.erase_cons_head, List.filter_cons_of_neg (by simp)]
      exact List.filter_sublist
    · rw [List.erase_cons_tail (by simpa using hx), List.filter_cons_of_pos (by simpa using hx)]
      exact List.Sublist.cons_cons x ih

/-- The table before a call of `SetData`, with its handle in front. -/
theorem sound_cons {s : LtState} {ddwPos : Nat} (h : s.table.Sound s.handles)
    (hp : ddwPos = 0 ∨ ddwPos ∈ s.handles) :
    s.table.Sound (ddwPos :: (s.drop ddwPos).map Prod.fst) := by
  by_cases hmem : ddwPos ∈ s.handles
  · exact h.subperm (drop_subperm hmem)
  · obtain rfl : ddwPos = 0 := hp.resolve_right hmem
    refine (h.subperm (List.Sublist.subperm ?_)).cons_zero
    exact List.Sublist.map Prod.fst List.filter_sublist

/-! ## A call of `SetData` or `EraseData` in two phases -/

/-- The calls that may hand a chain to `RecycleBlock`. -/
def Writes : LtOp → Prop
  | .setRecyclePoolSize _ => False
  | _ => True

/-- The table after the first phase: the new value, if there is one, is stored. -/
def stored (s : LtState) : LtOp → LinkTable
  | .setData _ data => (s.table.setData 0 data).2
  | _ => s.table

/-- The chain that the second phase hands to `RecycleBlock`. -/
def handsOver (s : LtState) : LtOp → Option Nat
  | .setData ddwPos data =>
    if ddwPos ≠ 0 ∧ retCode (s.table.setData 0 data).1 = 0 then some ddwPos else none
  | .eraseData ddwPos => some ddwPos
  | .setRecyclePoolSize _ => none

/-- The second phase. -/
def handOver (t : LinkTable) : Option Nat → LinkTable
  | some q => t.recycleBlock q
  | none => t

/-- The handles with the one that is on its way to the ring. -/
def withHandle (o : Option Nat) (handles : List Nat) : List Nat := o.toList ++ handles

theorem exec_table {s : LtState} {op : LtOp} (hw : Writes op) :
    (s.exec op).table = handOver (s.stored op) (s.handsOver op) := by
  cases op with
  | setData ddwPos data =>
    simp only [exec, stored, handsOver]
    rw [LinkTable.setData_eq s.table ddwPos data]
    rcases s.table.setData 0 data with ⟨e | p, t'⟩
    · have := e.code_neg
      rw [if_neg (by simp only [retCode]; omega)]
      rfl
    · by_cases h0 : ddwPos = 0
      · simp [h0, handOver]
      · simp [h0, handOver, retCode]
  | eraseData ddwPos => rfl
  | setRecyclePoolSize sz => exact hw.elim

/-- The first phase keeps every used block, and the chains stay apart. -/
theorem stored_sound {s : LtState} {op : LtOp} (h : s.table.Sound s.handles) (hc : s.Callable op)
    (hd : s.NoNullValue op) (hw : Writes op) :
    LinkTable.KeepsUsed s.table (s.stored op) ∧
      (s.stored op).Sound (withHandle (s.handsOver op) (s.exec op).handles) := by
  cases op with
  | setData ddwPos data =>
    have hcons := sound_cons h hc
    obtain ⟨hkeep, hnew⟩ := LinkTable.store_sound hcons hd
    refine ⟨hkeep, ?_⟩
    simp only [exec, stored, handsOver]
    rw [LinkTable.setData_eq s.table ddwPos data]
    rcases hr : s.table.setData 0 data with ⟨e | p, t'⟩
    · have := e.code_neg
      rw [hr] at hkeep
      rw [if_neg (by simp only [retCode]; omega)]
      exact (hkeep.sound h).1
    · rw [hr] at hnew
      have hswap := (hnew p rfl).subperm (List.Perm.swap p ddwPos _).subperm
      by_cases h0 : ddwPos = 0
      · rw [if_neg (by simp [h0])]
        exact hswap.subperm (List.sublist_cons_self ddwPos _).subperm
      · rw [if_pos ⟨h0, rfl⟩]
        exact hswap
  | eraseData ddwPos =>
    exact ⟨(LinkTable.Relinked.refl s.table).keepsUsed h.cursor, sound_cons h (.inr hc)⟩
  | setRecyclePoolSize sz => exact hw.elim

theorem setRecyclePoolSize_sound {s : LtState} {sz : Int} (h : s.table.Sound s.handles) :
    (s.exec (.setRecyclePoolSize sz)).table.Sound s.handles := by
  by_cases hsz : sz < 1 ∨ sz > LT_MAX_RECYCLE_POOL_SIZE
  · simpa only [exec, LinkTable.setRecyclePoolSize, if_pos hsz] using h
  · simp only [exec, LinkTable.setRecyclePoolSize, if_neg hsz]
    exact h.resize (by omega) (by omega)

/-- **The chains stay apart** whatever is stored, the empty value with a free list excepted. -/
theorem call_sound {s : LtState} {op : LtOp} (h : s.table.Sound s.handles) (hc : s.Callable op)
    (hd : s.NoNullValue op) : (s.exec op).table.Sound (s.exec op).handles := by
  by_cases hw : Writes op
  · obtain ⟨-, hsound⟩ := stored_sound h hc hd hw
    rw [exec_table hw]
    cases hq : s.handsOver op with
    | none => rwa [hq] at hsound
    | some q =>
      rw [hq] at hsound
      exact LinkTable.Sound.recycleBlock hsound
  · cases op with
    | setRecyclePoolSize sz => exact setRecyclePoolSize_sound h
    | _ => exact absurd trivial hw

/-- No call changes the number of blocks or their size, and only `SetRecyclePoolSize` changes that
    of the ring. -/
theorem call_head {s : LtState} {op : LtOp} (h : s.table.Sound s.handles) (hc : s.Callable op)
    (hd : s.NoNullValue op) : (s.exec op).table.ddwAllBlockCount = s.table.ddwAllBlockCount ∧
      (s.exec op).table.ddwBlockSize = s.table.ddwBlockSize ∧
      (Writes op → (s.exec op).table.dwRecyclePoolSize = s.table.dwRecyclePoolSize) := by
  by_cases hw : Writes op
  · obtain ⟨hkeep, hsound⟩ := stored_sound h hc hd hw
    rw [exec_table hw]
    cases hq : s.handsOver op with
    | none => exact ⟨hkeep.all, hkeep.size, fun _ => hkeep.poolSize⟩
    | some q =>
      rw [hq] at hsound
      have hhead := (LinkTable.recycleBlock_head hsound.ring hsound.isolated).1
      exact ⟨hhead.all.trans hkeep.all, hhead.size.trans hkeep.size,
        fun _ => hhead.poolSize.trans hkeep.poolSize⟩
  · cases op with
    | setRecyclePoolSize sz =>
      simp only [exec, LinkTable.setRecyclePoolSize]
      split
      · exact ⟨rfl, rfl, fun hw => hw.elim⟩
      · have hhead := (LinkTable.emptyRecyclePool_isolated h.ring h.isolated).2.1
        exact ⟨hhead.all, hhead.size, fun hw => hw.elim⟩
    | _ => exact absurd trivial hw

end LtState

/-- The table `Init` makes of at least one block. -/
theorem LinkTable.init_sound {ddwBufferSize ddwBlockCount ddwBlockSize : Nat} {t : LinkTable}
    (h : init ddwBufferSize ddwBlockCount ddwBlockSize = .ok t)
    (hs : 9 ≤ ddwBlockSize ∧ ddwBlockSize < 2 ^ 16 + 8)
    (hc : 0 < ddwBlockCount ∧ ddwBlockCount ≤ 2 ^ 48) : t.Sound [] := by
  obtain ⟨hall, -, hsize, hlast, hpool, hzero⟩ := init_eq h
  rw [dec64_of_pos hc.1] at hall
  refine ⟨⟨?_, ?_, by omega, ?_⟩, ⟨?_, ?_, fun i _ => hzero i⟩, isolated_of_pool_zero hzero⟩
  · rw [BLOCK_DATA_LEN]; omega
  · rw [BLOCK_DATA_LEN]; omega
  · rw [CursorOk]; omega
  · rw [hpool]; decide
  · rw [hpool]; decide

theorem LtState.run_sound {ddwBufferSize ddwBlockCount ddwBlockSize : Nat} {t : LinkTable}
    {s : LtState} (h : LinkTable.init ddwBufferSize ddwBlockCount ddwBlockSize = .ok t)
    (hs : 9 ≤ ddwBlockSize ∧ ddwBlockSize < 2 ^ 16 + 8)
    (hc : 0 < ddwBlockCount ∧ ddwBlockCount ≤ 2 ^ 48) (hrun : Calls NoNullValue ⟨t, []⟩ s) :
    s.table.Sound s.handles := by
  refine run_invariant (I := fun s => s.table.Sound s.handles) hrun
    (LinkTable.init_sound h hs hc) ?_
  rintro s s' hsound ⟨op, hcall, hd⟩
  exact call_sound hsound hcall hd

end MysqlProxy
