/-
  Delayed reuse: what the recycle ring promises to a reader that takes no lock.

  A reader may still follow a chain that a writer has given up.  `RecycleBlock` therefore parks the
  chain in a ring of `dwRecyclePoolSize` slots and frees the chain it finds there.  The promise:
  through fewer than `dwRecyclePoolSize` FURTHER calls of `RecycleBlock` the blocks of a parked
  chain keep their links, lengths and bytes (`LtState.run_delayed`), and at the
  `dwRecyclePoolSize`-th call they are freed, each of them once.

  The argument is the ring arithmetic: the chain sits in slot `i`, and after `k` further calls the
  next slot is `(i + 1 + k) mod dwRecyclePoolSize` (`LtState.Waiting`).

  The promise breaks when an EMPTY value is stored while there is a free list.  Its handle is the
  head of the list, which may be a block that the scan has taken since: giving that handle up parks
  a chain that is parked already, and its first slot frees it too early
  (`LtState.parked_twice_not_kept`).
-/
import MysqlProxy.Ht.LinkTableSpace

namespace MysqlProxy

namespace LinkTable

/-! ## The ring index -/

theorem fillPath_index (l : List Nat) (data : List UInt8) (t : LinkTable) :
    (fillPath l data t).ddwRecycleIndex = t.ddwRecycleIndex := by
  induction l generalizing data t with
  | nil => rfl
  | cons b l ih => rw [fillPath, ih]; rfl

/-- Storing a value does not move the ring. -/
theorem store_index {t : LinkTable} {data : List UInt8} (hf : Fits t) :
    (t.setData 0 data).2.ddwRecycleIndex = t.ddwRecycleIndex := by
  by_cases hnil : data = []
  · rw [hnil, setData_nil hf.bdl_pos]
    split <;> rfl
  have hout := setData_outcome 0 hf hnil
  generalize t.setData 0 data = r at hout ⊢
  cases hout with
  | tooLarge hmax => rfl
  | noSpace t1 hmax hget halloc => exact halloc.relinked.index
  | noBlocks t1 htiny hrel hcur hno => exact hrel.index
  | shortList t1 p q l hrel hcur h hshort => exact (fillPath_index l data t1).trans hrel.index
  | stored t1 p q l hrel hcur h hfull hmax => exact (fillPath_index l data t1).trans hrel.index

/-- A step of the ring index, in arithmetic modulo the size of the ring. -/
theorem ring_succ {i k n : Nat} : ((i + 1 + k) % n + 1) % n = (i + 1 + (k + 1)) % n := by
  rw [Nat.mod_add_mod]
  rfl

/-- Fewer than a full turn after slot `i` comes another slot. -/
theorem ring_ne {i k n : Nat} (hi : i < n) (hk : k + 1 < n) : (i + 1 + k) % n ≠ i := by
  rcases Nat.lt_or_ge (i + 1 + k) n with h | h
  · rw [Nat.mod_eq_of_lt h]
    omega
  · rw [Nat.mod_eq_sub_mod h, Nat.mod_eq_of_lt (by omega)]
    omega

/-- A full turn after slot `i` comes slot `i`. -/
theorem ring_turn {i k n : Nat} (hi : i < n) (hk : k + 1 = n) : (i + 1 + k) % n = i := by
  rw [show i + 1 + k = i + n by omega, Nat.add_mod_right, Nat.mod_eq_of_lt hi]

end LinkTable

namespace LtState

/-! ## What follows a hand-over -/

/-- One call of `SetData` or `EraseData`, with the number of `RecycleBlock` calls made so far. -/
inductive Follow (allowed : LtState → LtOp → Prop) : LtState × Nat → LtState × Nat → Prop where
  | call (s : LtState) (k : Nat) (op : LtOp) : s.Callable op → allowed s op → Writes op →
      Follow allowed (s, k) (s.exec op, k + (s.handsOver op).toList.length)

/-- The states that follow, each with its number of `RecycleBlock` calls. -/
def Follows (allowed : LtState → LtOp → Prop) : LtState × Nat → LtState × Nat → Prop :=
  Relation.ReflTransGen (Follow allowed)

/-- The blocks `l` of the chain at `p`, and what `GetData` reads there, are in `s'` what they were
    in `s`. -/
def Keeps (s s' : LtState) (p : Nat) (l : List Nat) : Prop :=
  (∀ b ∈ l, s'.table.blocks b = s.table.blocks b) ∧
    ∀ n, s'.table.getData p n = s.table.getData p n

/-- The call hands a chain to `RecycleBlock`, and that frees exactly the blocks `l`, one after the
    other. -/
def FreesExactly (s : LtState) (op : LtOp) (l : List Nat) : Prop :=
  l.Nodup ∧ ∀ q, s.handsOver op = some q →
    (s.exec op).table = l.foldl LinkTable.pushFree ((s.stored op).parkBlock q)

/-- `k` calls of `RecycleBlock` after the chain `l` at `p` was parked in slot `i`. -/
structure Waiting (s₀ : LtState) (p i : Nat) (l : List Nat) (s : LtState) (k : Nat) : Prop where
  sound : s.table.Sound s.handles
  all : s.table.ddwAllBlockCount = s₀.table.ddwAllBlockCount
  size : s.table.ddwBlockSize = s₀.table.ddwBlockSize
  poolSize : s.table.dwRecyclePoolSize = s₀.table.dwRecyclePoolSize
  lt : i < s₀.table.dwRecyclePoolSize
  chain : Chain s₀.table.next p l
  index : s.table.ringSlot = (i + 1 + k) % s₀.table.dwRecyclePoolSize
  slot : k < s₀.table.dwRecyclePoolSize → s.table.addwRecyclePool i = p
  blocks : k < s₀.table.dwRecyclePoolSize → ∀ b ∈ l, s.table.blocks b = s₀.table.blocks b

section Waiting

variable {s₀ s : LtState} {p i k : Nat} {l : List Nat} {op : LtOp}

theorem Waiting.keeps (h : Waiting s₀ p i l s k) (hk : k < s₀.table.dwRecyclePoolSize) :
    Keeps s₀ s p l :=
  ⟨h.blocks hk, fun _ => LinkTable.getData_congr h.all h.size h.chain (h.blocks hk)⟩

/-- The chain is where it was, and a ring entry owns it. -/
theorem Waiting.chain_now (h : Waiting s₀ p i l s k) (hk : k < s₀.table.dwRecyclePoolSize) :
    Chain s.table.next p l := by
  refine h.chain.frame fun b hb => ?_
  rw [LinkTable.next, LinkTable.next, h.blocks hk b hb]

theorem mem_ring {t : LinkTable} {i : Nat} (hr : t.RingOk) (hi : i < t.dwRecyclePoolSize) :
    t.addwRecyclePool i ∈ t.ring :=
  mem_slots.mpr ⟨i, Nat.lt_of_lt_of_le hi hr.le, rfl⟩

/-- The first phase of a call leaves the parked chain and the ring alone. -/
theorem Waiting.stored (h : Waiting s₀ p i l s k) (hc : s.Callable op) (hd : s.NoNullValue op)
    (hw : Writes op) (hk : k < s₀.table.dwRecyclePoolSize) :
    (s.stored op).addwRecyclePool i = p ∧
      ∀ b ∈ l, (s.stored op).blocks b = s₀.table.blocks b := by
  obtain ⟨hkeep, -⟩ := stored_sound h.sound hc hd hw
  refine ⟨by rw [hkeep.pool]; exact h.slot hk, fun b hb => ?_⟩
  rw [← h.blocks hk b hb]
  refine (hkeep.sound h.sound).2 b ⟨p, ?_, l, h.chain_now hk, hb⟩
  rw [← h.slot hk]
  exact List.mem_append_right _ (mem_ring h.sound.ring (by rw [h.poolSize]; exact h.lt))

theorem stored_ringSlot (h : s.table.Sound s.handles) (hc : s.Callable op) (hd : s.NoNullValue op)
    (hw : Writes op) : (s.stored op).ringSlot = s.table.ringSlot := by
  obtain ⟨hkeep, -⟩ := stored_sound h hc hd hw
  have hidx : (s.stored op).ddwRecycleIndex = s.table.ddwRecycleIndex := by
    cases op with
    | setData ddwPos data => exact LinkTable.store_index h.toFits
    | _ => rfl
  rw [LinkTable.ringSlot, LinkTable.ringSlot, hkeep.poolSize, hidx]

/-- After `RecycleBlock` the ring stands one slot further on. -/
theorem recycleBlock_ringSlot {t : LinkTable} {q : Nat} {handles : List Nat}
    (hs : t.Sound (q :: handles)) :
    (t.recycleBlock q).ringSlot = (t.ringSlot + 1) % t.dwRecyclePoolSize := by
  obtain ⟨hhead, -, -, hidx⟩ := LinkTable.recycleBlock_head hs.ring hs.isolated
  have hlt : (t.ringSlot + 1) % t.dwRecyclePoolSize < t.dwRecyclePoolSize :=
    Nat.mod_lt _ hs.ring.pos
  rw [LinkTable.ringSlot, hhead.poolSize, hidx]
  exact if_neg (Nat.not_le.mpr hlt)

/-- A call of `RecycleBlock` that is not the last one of the turn spares the chain. -/
theorem recycleBlock_spares {t : LinkTable} {q : Nat} {handles : List Nat}
    (hs : t.Sound (q :: handles)) (hi : i < t.dwRecyclePoolSize) (hne : t.ringSlot ≠ i)
    (hp : t.addwRecyclePool i = p) (hl : Chain t.next p l) :
    (t.recycleBlock q).addwRecyclePool i = p ∧
      ∀ b ∈ l, (t.recycleBlock q).blocks b = t.blocks b := by
  obtain ⟨-, -, -, -, -, hk⟩ := LinkTable.recycleBlock_spec hs.ring hs.isolated
  have hpark : (t.parkBlock q).addwRecyclePool i = p := by
    show Function.update t.addwRecyclePool t.ringSlot q i = p
    rw [Function.update_of_ne (Ne.symm hne)]
    exact hp
  constructor
  · rw [(LinkTable.recycleBlock_head hs.ring hs.isolated).2.2.1]
    exact hpark
  · intro b hb
    refine hk b ⟨p, List.mem_append_right _ ?_, l, hl, hb⟩
    rw [← hpark]
    exact mem_ring (LinkTable.parkBlock_ringOk hs.ring q) hi

/-- **One call** of `SetData` or `EraseData`. -/
theorem Waiting.follow (h : Waiting s₀ p i l s k) (hc : s.Callable op) (hd : s.NoNullValue op)
    (hw : Writes op) : Waiting s₀ p i l (s.exec op) (k + (s.handsOver op).toList.length) := by
  obtain ⟨hkeep, hsound⟩ := stored_sound h.sound hc hd hw
  obtain ⟨hall, hsize, hpool⟩ := call_head h.sound hc hd
  have hslot := stored_ringSlot h.sound hc hd hw
  have hexec := exec_table (s := s) hw
  have hsound' := call_sound h.sound hc hd
  cases hq : s.handsOver op with
  | none =>
    rw [hq] at hexec
    refine ⟨hsound', hall.trans h.all, hsize.trans h.size, (hpool hw).trans h.poolSize, h.lt,
      h.chain, ?_, fun hk => ?_, fun hk => ?_⟩
    · rw [hexec]
      exact hslot.trans h.index
    · rw [hexec]
      exact (h.stored hc hd hw hk).1
    · rw [hexec]
      exact (h.stored hc hd hw hk).2
  | some q =>
    rw [hq] at hsound hexec
    have hn : (s.stored op).dwRecyclePoolSize = s₀.table.dwRecyclePoolSize :=
      hkeep.poolSize.trans h.poolSize
    -- the slot is another one as long as the turn is not over
    have hspare : k + 1 < s₀.table.dwRecyclePoolSize →
        ((s.stored op).recycleBlock q).addwRecyclePool i = p ∧
          ∀ b ∈ l, ((s.stored op).recycleBlock q).blocks b = s₀.table.blocks b := by
      intro hk
      obtain ⟨hp, hb⟩ := h.stored hc hd hw (by omega)
      have hl : Chain (s.stored op).next p l := h.chain.frame fun b hbl => by
        rw [LinkTable.next, LinkTable.next, hb b hbl]
      have hne : (s.stored op).ringSlot ≠ i := by
        rw [hslot, h.index]
        exact LinkTable.ring_ne h.lt hk
      obtain ⟨h1, h2⟩ := recycleBlock_spares hsound (hn ▸ h.lt) hne hp hl
      exact ⟨h1, fun b hbl => (h2 b hbl).trans (hb b hbl)⟩
    refine ⟨hsound', hall.trans h.all, hsize.trans h.size, (hpool hw).trans h.poolSize, h.lt,
      h.chain, ?_, fun hk => ?_, fun hk => ?_⟩
    · rw [hexec]
      show ((s.stored op).recycleBlock q).ringSlot = _
      rw [recycleBlock_ringSlot hsound, hslot, hn, h.index]
      exact LinkTable.ring_succ
    · rw [hexec]
      exact (hspare hk).1
    · rw [hexec]
      exact (hspare hk).2

/-- The last call of the turn frees the chain. -/
theorem Waiting.frees (h : Waiting s₀ p i l s k) (hc : s.Callable op) (hd : s.NoNullValue op)
    (hk : k + 1 = s₀.table.dwRecyclePoolSize) : s.FreesExactly op l := by
  refine ⟨h.chain.nodup, fun q hq => ?_⟩
  have hw : Writes op := by
    cases op with
    | setRecyclePoolSize sz => simp [handsOver] at hq
    | _ => trivial
  obtain ⟨hkeep, hsound⟩ := stored_sound h.sound hc hd hw
  rw [hq] at hsound
  obtain ⟨hp, hb⟩ := h.stored hc hd hw (by omega)
  have hl : Chain (s.stored op).next p l := h.chain.frame fun b hbl => by
    rw [LinkTable.next, LinkTable.next, hb b hbl]
  obtain ⟨l', hl', -, heq, -, -⟩ := LinkTable.recycleBlock_spec hsound.ring hsound.isolated
  rw [stored_ringSlot h.sound hc hd hw, h.index, LinkTable.ring_turn h.lt hk, hp] at hl'
  rw [exec_table hw, hq, ← hl'.unique hl]
  exact heq

end Waiting

/-! ## The hand-over -/

section HandOver

variable {s : LtState} {op : LtOp} {p : Nat}

theorem mem_handles_of_handsOver (hc : s.Callable op) (hq : s.handsOver op = some p) :
    p ∈ s.handles ∧ Writes op := by
  cases op with
  | setData ddwPos data =>
    rw [handsOver] at hq
    split at hq
    · next hif =>
      obtain rfl : ddwPos = p := Option.some.inj hq
      exact ⟨hc.resolve_left hif.1, trivial⟩
    · simp at hq
  | eraseData ddwPos =>
    obtain rfl : ddwPos = p := Option.some.inj hq
    exact ⟨hc, trivial⟩
  | setRecyclePoolSize sz => simp [handsOver] at hq

/-- Right after the hand-over the chain waits in the slot the ring stood at. -/
theorem waiting_start (h : s.table.Sound s.handles) (hc : s.Callable op) (hd : s.NoNullValue op)
    (hq : s.handsOver op = some p) :
    ∃ l, Waiting s p s.table.ringSlot l (s.exec op) 0 := by
  obtain ⟨hmem, hw⟩ := mem_handles_of_handsOver hc hq
  obtain ⟨hkeep, hsound⟩ := stored_sound h hc hd hw
  obtain ⟨hall, hsize, hpool⟩ := call_head h hc hd
  have hslot := stored_ringSlot h hc hd hw
  have hexec := exec_table (s := s) hw
  rw [hq] at hsound hexec
  obtain ⟨l, hl, -, -⟩ := Owns.chain h.isolated (List.mem_append_left s.table.ring hmem)
  -- the blocks survive the store, and then the parking
  have hstored : ∀ b ∈ l, (s.stored op).blocks b = s.table.blocks b := fun b hb =>
    (hkeep.sound h).2 b ⟨p, List.mem_append_left _ hmem, l, hl, hb⟩
  have hl' : Chain (s.stored op).next p l := hl.frame fun b hb => by
    rw [LinkTable.next, LinkTable.next, hstored b hb]
  have hparked := (LinkTable.recycleBlock_isolated hsound.ring hsound.isolated).2.2.2
  refine ⟨l, call_sound h hc hd, hall, hsize, hpool hw, LinkTable.ringSlot_lt h.ring, hl, ?_,
    fun _ => ?_, fun _ b hb => ?_⟩
  · rw [hexec]
    show ((s.stored op).recycleBlock p).ringSlot = _
    rw [recycleBlock_ringSlot hsound, hslot, hkeep.poolSize]
  · rw [hexec]
    show ((s.stored op).recycleBlock p).addwRecyclePool _ = _
    rw [(LinkTable.recycleBlock_head hsound.ring hsound.isolated).2.2.1, ← hslot]
    exact Function.update_self _ _ _
  · rw [hexec]
    exact (hparked b ⟨p, List.mem_cons_self, l, hl', hb⟩).trans (hstored b hb)

end HandOver

/-- **Delayed reuse.**  In every run that stores no empty value while there is a free list: through
    fewer than `dwRecyclePoolSize` further calls of `RecycleBlock` the blocks of a chain that was
    handed over, and what is read at its handle, stay as they were; and the call that completes the
    turn frees exactly its blocks, each of them once. -/
theorem run_delayed {ddwBufferSize ddwBlockCount ddwBlockSize : Nat} {t : LinkTable} {s : LtState}
    {op : LtOp} {p : Nat} (hs : 9 ≤ ddwBlockSize ∧ ddwBlockSize < 2 ^ 16 + 8)
    (hc : ddwBlockCount ≤ 2 ^ 48)
    (h : LinkTable.init ddwBufferSize ddwBlockCount ddwBlockSize = .ok t)
    (hrun : Calls NoNullValue ⟨t, []⟩ s) (hcall : s.Callable op) (hd : s.NoNullValue op)
    (hq : s.handsOver op = some p) :
    ∃ l, Chain s.table.next p l ∧ ∀ s' k, Follows NoNullValue (s.exec op, 0) (s', k) →
      (k < s.table.dwRecyclePoolSize → Keeps s s' p l) ∧
      (k + 1 = s.table.dwRecyclePoolSize →
        ∀ op', s'.Callable op' → s'.NoNullValue op' → s'.FreesExactly op' l) := by
  rcases Nat.eq_zero_or_pos ddwBlockCount with rfl | h0
  · -- a table without blocks has no handles
    have href := run_invariant hrun (init_refusing h) call_refusing
    have hmem := (mem_handles_of_handsOver hcall hq).1
    simp [handles, href.live] at hmem
  · have hsound := run_sound h hs ⟨h0, hc⟩ hrun
    obtain ⟨l, hwait⟩ := waiting_start hsound hcall hd hq
    refine ⟨l, hwait.chain, fun s' k hfollow => ?_⟩
    have hnow := run_invariant
      (I := fun x : LtState × Nat => Waiting s p s.table.ringSlot l x.1 x.2) hfollow hwait
      fun hinv hstep => by
        obtain ⟨s, k, op, hcall, hd, hw⟩ := hstep
        exact hinv.follow hcall hd hw
    exact ⟨hnow.keeps, fun hk op' hc' hd' => hnow.frees hc' hd' hk⟩

/-- One value, overwritten: the old chain waits in the ring. -/
def overwriteOps : List LtOp := [.setData 0 [1], .setData 0 [2], .setRecyclePoolSize 2]

theorem run_delayed_overwrite :
    ∃ l, Chain (overwriteOps.foldl exec ⟨eightBlocks, []⟩).table.next 1 l ∧
      Keeps (overwriteOps.foldl exec ⟨eightBlocks, []⟩)
        ((overwriteOps.foldl exec ⟨eightBlocks, []⟩).exec (.setData 1 [3])) 1 l := by
  obtain ⟨l, hl, hkeep⟩ := @run_delayed _ _ _ _ _ (.setData 1 [3]) 1
    (show 9 ≤ 32 ∧ 32 < 2 ^ 16 + 8 by decide) (by decide) init_eightBlocks
    (@Plays.calls _ overwriteOps _ (by decide +kernel)) (by decide +kernel) (by decide +kernel)
    (by decide +kernel)
  exact ⟨l, hl, (hkeep _ 0 .refl).1 (by decide +kernel)⟩

/-! ## A chain that is parked twice -/

/-- Block `1` is freed and becomes the free list; five blocks are too many for the list, the scan
    takes `3, 4, 5, 6, 1`, and the list still starts at `1`.  That chain is given up.  The empty
    value stored next gets the handle `1`: the chain that is parked already. -/
def twiceOps : List LtOp :=
  [.setData 0 [1], .setData 0 [2], .eraseData 1, .setRecyclePoolSize 2,
    .setData 0 (List.replicate 97 5), .eraseData 1, .setData 0 []]

def twiceState : LtState := twiceOps.foldl exec ⟨eightBlocks, []⟩

/-- **The defect.**  The ring has two slots.  The chain at `1` holds 97 bytes when it is handed over
    (for the second time); after ONE further call of `RecycleBlock` its blocks are free. -/
theorem parked_twice_not_kept : ∃ t s s' l, LinkTable.init 2000000 8 32 = .ok t ∧
    Calls (fun _ _ => True) ⟨t, []⟩ s ∧ s.Callable (.eraseData 1) ∧
    s.handsOver (.eraseData 1) = some 1 ∧ s.table.dwRecyclePoolSize = 2 ∧
    Chain s.table.next 1 l ∧ s.table.getData 1 120 = .ok (List.replicate 97 5) ∧
    Follows (fun _ _ => True) (s.exec (.eraseData 1), 0) (s', 1) ∧
    s'.table.getData 1 120 ≠ .ok (List.replicate 97 5) ∧ ¬ Keeps s s' 1 l := by
  have hread : twiceState.table.getData 1 120 = .ok (List.replicate 97 5) := by decide +kernel
  have hread' : ((twiceState.exec (.eraseData 1)).exec (.eraseData 2)).table.getData 1 120 ≠
      .ok (List.replicate 97 5) := by decide +kernel
  refine ⟨eightBlocks, twiceState, (twiceState.exec (.eraseData 1)).exec (.eraseData 2),
    [1, 6, 5, 4, 3], init_eightBlocks, Plays.calls (by decide +kernel), by decide +kernel, rfl,
    by decide +kernel, by decide +kernel, hread, ?_, hread', ?_⟩
  · exact .single (.call _ 0 (.eraseData 2) (by decide +kernel) trivial trivial)
  · intro hkeep
    rw [hkeep.2 120] at hread'
    exact hread' hread

end LtState

end MysqlProxy
