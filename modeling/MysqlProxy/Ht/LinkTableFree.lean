/-
  What freeing and recycling do to a `LinkTable`.

  `Used t b` — a usable position whose block holds data.  The live chains of a table and the
  chains parked in its recycle ring consist of used blocks and share none of them:
  `Isolated t handles`.  Freeing touches the blocks of ONE chain (`freeBlock_chain`), so every
  other chain keeps its blocks; recycling moves a handle from the live ones into the ring and
  frees whatever it pushed out (`recycleBlock_isolated`).
-/
import MysqlProxy.Ht.LinkTable

namespace MysqlProxy.LinkTable

/-! ## Field lemmas of the block writes -/

section Fields

variable (t : LinkTable) (b c n : Nat)

@[simp] theorem setBlock_blocks_self (v : LtBlock) : (t.setBlock b v).blocks b = v := by
  simp [setBlock]

theorem setBlock_blocks_ne (v : LtBlock) (h : c ≠ b) : (t.setBlock b v).blocks c = t.blocks c := by
  simp [setBlock, h]

theorem setNext_blocks_ne (h : c ≠ b) : (t.setNext b n).blocks c = t.blocks c :=
  setBlock_blocks_ne t b c _ h

@[simp] theorem setNext_next_self : (t.setNext b n).next b = n % 2 ^ 48 := by
  simp [setNext, next]

theorem setNext_next_ne (h : c ≠ b) : (t.setNext b n).next c = t.next c := by
  rw [next, next, setNext_blocks_ne t b c n h]

@[simp] theorem setNext_len : (t.setNext b n).len c = t.len c := by
  by_cases h : c = b
  · subst h; simp [setNext, len]
  · rw [len, len, setNext_blocks_ne t b c n h]

@[simp] theorem setNext_bufData : ((t.setNext b n).blocks c).bufData = (t.blocks c).bufData := by
  by_cases h : c = b
  · subst h; simp [setNext]
  · rw [setNext_blocks_ne t b c n h]

theorem pushFree_blocks_ne (h : c ≠ b) : (t.pushFree b).blocks c = t.blocks c :=
  setBlock_blocks_ne t b c _ h

@[simp] theorem pushFree_len_self : (t.pushFree b).len b = 0 := by
  simp [pushFree, len, zeroBlock, setBlock]

end Fields

/-! ## The shape of a table -/

/-- A usable position whose block holds data. -/
def Used (t : LinkTable) (b : Nat) : Prop := 0 < b ∧ b < t.ddwAllBlockCount ∧ t.len b ≠ 0

/-- A usable position whose block is empty. -/
def Empty (t : LinkTable) (b : Nat) : Prop := 0 < b ∧ b < t.ddwAllBlockCount ∧ t.len b = 0

/-- The entries of the recycle ring, the empty ones included. -/
def ring (t : LinkTable) : List Nat := slots LT_MAX_RECYCLE_POOL_SIZE t.addwRecyclePool

/-- The chains of `handles` and of all ring entries are finite, acyclic, pairwise disjoint
    sequences of used blocks, none longer than a value can be. -/
def Isolated (t : LinkTable) (handles : List Nat) : Prop :=
  Owns t.next t.Used MAX_BLOCK_COUNT (handles ++ t.ring)

/-- `t'` has the blocks `t` has at every position on the chain of one of `roots`. -/
def KeepsChains (t t' : LinkTable) (roots : List Nat) : Prop :=
  ∀ b, Covered t.next roots b → t'.blocks b = t.blocks b

theorem covered_mono {next : Nat → Nat} {roots roots' : List Nat} (h : roots ⊆ roots') {b : Nat}
    (hb : Covered next roots b) : Covered next roots' b := by
  obtain ⟨r, hr, l, hl⟩ := hb
  exact ⟨r, h hr, l, hl⟩

/-- Ownership survives any change that keeps the owned blocks. -/
theorem Owns.keep {t t' : LinkTable} {roots : List Nat} {bound : Nat}
    (h : Owns t.next t.Used bound roots) (hk : KeepsChains t t' roots)
    (hall : t'.ddwAllBlockCount = t.ddwAllBlockCount) : Owns t'.next t'.Used bound roots := by
  refine h.frame fun b hb => ?_
  have hblk := hk b hb
  obtain ⟨h0, h1, h2⟩ := h.ok_of_covered hb
  refine ⟨by rw [next, next, hblk], h0, hall ▸ h1, ?_⟩
  rw [len, hblk]
  exact h2

/-- The blocks kept are on the same chains afterwards. -/
theorem KeepsChains.covered {t t' : LinkTable} {roots : List Nat} (hk : KeepsChains t t' roots)
    {b : Nat} (hb : Covered t.next roots b) : Covered t'.next roots b := by
  obtain ⟨r, hr, l, hl, hbl⟩ := hb
  refine ⟨r, hr, l, hl.frame fun x hx => ?_, hbl⟩
  rw [next, next, hk x ⟨r, hr, l, hl, hx⟩]

theorem KeepsChains.trans {t t' t'' : LinkTable} {roots : List Nat} (h1 : KeepsChains t t' roots)
    (h2 : KeepsChains t' t'' roots) : KeepsChains t t'' roots := by
  intro b hb
  rw [h2 b (h1.covered hb), h1 b hb]

theorem KeepsChains.mono {t t' : LinkTable} {roots roots' : List Nat}
    (h : KeepsChains t t' roots) (hs : roots' ⊆ roots) : KeepsChains t t' roots' :=
  fun b hb => h b (covered_mono hs hb)

/-! ## Freeing one chain -/

/-- The header fields that freeing leaves alone. -/
structure SameHead (t t' : LinkTable) : Prop where
  all : t'.ddwAllBlockCount = t.ddwAllBlockCount
  size : t'.ddwBlockSize = t.ddwBlockSize
  last : t'.ddwLastEmpty = t.ddwLastEmpty
  poolSize : t'.dwRecyclePoolSize = t.dwRecyclePoolSize

theorem SameHead.refl (t : LinkTable) : SameHead t t := ⟨rfl, rfl, rfl, rfl⟩

theorem SameHead.trans {t t' t'' : LinkTable} (h1 : SameHead t t') (h2 : SameHead t' t'') :
    SameHead t t'' :=
  ⟨h2.all.trans h1.all, h2.size.trans h1.size, h2.last.trans h1.last,
    h2.poolSize.trans h1.poolSize⟩

theorem foldl_pushFree_head (l : List Nat) (t : LinkTable) :
    SameHead t (l.foldl pushFree t) ∧
      (l.foldl pushFree t).addwRecyclePool = t.addwRecyclePool ∧
      (l.foldl pushFree t).ddwRecycleIndex = t.ddwRecycleIndex := by
  induction l generalizing t with
  | nil => exact ⟨SameHead.refl t, rfl, rfl⟩
  | cons b l ih =>
    obtain ⟨h1, h2, h3⟩ := ih (t.pushFree b)
    exact ⟨⟨h1.all, h1.size, h1.last, h1.poolSize⟩, h2, h3⟩

theorem foldl_pushFree_blocks {l : List Nat} {b : Nat} (t : LinkTable) (hb : b ∉ l) :
    (l.foldl pushFree t).blocks b = t.blocks b := by
  induction l generalizing t with
  | nil => rfl
  | cons c l ih =>
    simp only [List.mem_cons, not_or] at hb
    rw [List.foldl_cons, ih _ hb.2, pushFree_blocks_ne t c b hb.1]

theorem foldl_pushFree_len {l : List Nat} {b : Nat} (t : LinkTable) (hb : b ∈ l) :
    (l.foldl pushFree t).len b = 0 := by
  induction l generalizing t with
  | nil => simp at hb
  | cons c l ih =>
    rw [List.foldl_cons]
    by_cases hl : b ∈ l
    · exact ih _ hl
    · obtain rfl : b = c := (List.mem_cons.mp hb).resolve_right hl
      rw [len, foldl_pushFree_blocks _ hl]
      exact pushFree_len_self t b

/-- On a chain that ends, the loop of `FreeBlock` frees exactly the chain. -/
theorem freeLoop_chain (start : Nat) {l : List Nat} : ∀ {n p : Nat} {t : LinkTable},
    Chain t.next p l → l.length ≤ n → (∀ b ∈ l, b < t.ddwAllBlockCount) →
    freeLoop start n p t = (.ok (), l.foldl pushFree t) := by
  induction l with
  | nil =>
    intro n p t hp _ _
    rw [chain_nil] at hp
    subst hp
    cases n <;> simp [freeLoop]
  | cons x l ih =>
    intro n p t hp hn hlt
    cases n with
    | zero => simp at hn
    | succ n =>
      have hx : x ∉ l := (List.nodup_cons.mp hp.nodup).1
      obtain ⟨rfl, hx0, hrest⟩ := hp
      have hxlt : ¬ p ≥ t.ddwAllBlockCount := Nat.not_le.mpr (hlt p List.mem_cons_self)
      rw [freeLoop, if_neg hx0, if_neg hxlt, List.foldl_cons]
      refine ih (hrest.frame fun y hy => ?_) (by simpa using hn)
        (fun b hb => hlt b (List.mem_cons_of_mem p hb))
      rw [next, next, pushFree_blocks_ne t p y (fun h => hx (h ▸ hy))]

/-- `FreeBlock` frees exactly the chain it is given. -/
theorem freeBlock_chain {t : LinkTable} {p : Nat} {l : List Nat} (hp : Chain t.next p l)
    (hp0 : p ≠ 0) (hlen : l.length ≤ MAX_BLOCK_COUNT) (hu : ∀ b ∈ l, t.Used b) :
    t.freeBlock p = (.ok (), l.foldl pushFree t) := by
  have hmem : p ∈ l := by
    cases l with
    | nil => exact absurd hp hp0
    | cons x l => rw [hp.1]; exact List.mem_cons_self
  have hlt := (hu p hmem).2.1
  rw [freeBlock, if_neg (by omega)]
  exact freeLoop_chain p hp (by omega) (fun b hb => (hu b hb).2.1)

/-- Freeing the first root leaves the chains of all the others alone. -/
theorem freeBlock_owns {t : LinkTable} {p : Nat} {roots : List Nat} (hp0 : p ≠ 0)
    (h : Owns t.next t.Used MAX_BLOCK_COUNT (p :: roots)) :
    Owns (t.freeBlock p).2.next (t.freeBlock p).2.Used MAX_BLOCK_COUNT roots ∧
      KeepsChains t (t.freeBlock p).2 roots ∧ SameHead t (t.freeBlock p).2 ∧
      (t.freeBlock p).2.addwRecyclePool = t.addwRecyclePool ∧
      (t.freeBlock p).2.ddwRecycleIndex = t.ddwRecycleIndex := by
  obtain ⟨l, hl, hlen, hok, hdis⟩ := h.head
  rw [freeBlock_chain hl hp0 hlen hok]
  obtain ⟨hhead, hpool, hidx⟩ := foldl_pushFree_head l t
  have hk : KeepsChains t (l.foldl pushFree t) roots :=
    fun b hb => foldl_pushFree_blocks t (fun hbl => hdis b hbl hb)
  exact ⟨Owns.keep h.tail hk hhead.all, hk, hhead, hpool, hidx⟩

/-! ## Recycling -/

/-- The bounds on the ring that the code checks in `SetRecyclePoolSize`, and that entries past
    the current size are empty. -/
structure RingOk (t : LinkTable) : Prop where
  pos : 0 < t.dwRecyclePoolSize
  le : t.dwRecyclePoolSize ≤ LT_MAX_RECYCLE_POOL_SIZE
  rest : ∀ i, t.dwRecyclePoolSize ≤ i → t.addwRecyclePool i = 0

/-- The ring slot `RecycleBlock` uses. -/
def ringSlot (t : LinkTable) : Nat :=
  if t.ddwRecycleIndex ≥ t.dwRecyclePoolSize then 0 else t.ddwRecycleIndex

theorem ringSlot_lt {t : LinkTable} (h : RingOk t) : t.ringSlot < t.dwRecyclePoolSize := by
  have := h.pos
  unfold ringSlot
  split <;> omega

/-- The state in the middle of `RecycleBlock`: the chain is in its slot, the old one not freed
    yet. -/
def parkBlock (t : LinkTable) (p : Nat) : LinkTable :=
  { t with
    addwRecyclePool := Function.update t.addwRecyclePool t.ringSlot p
    ddwRecycleIndex := (t.ringSlot + 1) % t.dwRecyclePoolSize }

theorem recycleBlock_eq (t : LinkTable) (p : Nat) :
    t.recycleBlock p =
      if t.addwRecyclePool t.ringSlot ≠ 0 then
        ((t.parkBlock p).freeBlock (t.addwRecyclePool t.ringSlot)).2
      else t.parkBlock p := rfl

/-- Parking a handle moves it into the ring and takes the old entry of the slot out. -/
theorem parkBlock_perm {t : LinkTable} (hr : RingOk t) (p : Nat) (roots : List Nat) :
    (p :: (roots ++ t.ring)).Perm
      (t.addwRecyclePool t.ringSlot :: (roots ++ (t.parkBlock p).ring)) := by
  have hlt : t.ringSlot < LT_MAX_RECYCLE_POOL_SIZE := Nat.lt_of_lt_of_le (ringSlot_lt hr) hr.le
  have hslots := slots_update_perm t.addwRecyclePool p hlt
  exact List.perm_middle.symm.trans
    ((List.Perm.append_left roots hslots.symm).trans List.perm_middle)

theorem parkBlock_ringOk {t : LinkTable} (hr : RingOk t) (p : Nat) : RingOk (t.parkBlock p) := by
  refine ⟨hr.pos, hr.le, fun i hi => ?_⟩
  have hne : i ≠ t.ringSlot := Nat.ne_of_gt (Nat.lt_of_lt_of_le (ringSlot_lt hr) hi)
  show Function.update t.addwRecyclePool t.ringSlot p i = 0
  rw [Function.update_of_ne hne]
  exact hr.rest i hi

theorem RingOk.of_eq {t t' : LinkTable} (h : RingOk t)
    (hs : t'.dwRecyclePoolSize = t.dwRecyclePoolSize)
    (hp : t'.addwRecyclePool = t.addwRecyclePool) : RingOk t' :=
  ⟨hs ▸ h.pos, hs ▸ h.le, fun i hi => hp ▸ h.rest i (hs ▸ hi)⟩

/-- The parked chain and the live ones are among those that own something after parking. -/
theorem parkBlock_subset {t : LinkTable} (hr : RingOk t) (p : Nat) (handles : List Nat) :
    p :: handles ⊆ handles ++ (t.parkBlock p).ring := by
  intro x hx
  rcases List.mem_cons.mp hx with rfl | hx
  · refine List.mem_append_right handles (mem_slots.mpr ⟨t.ringSlot, ?_, ?_⟩)
    · exact Nat.lt_of_lt_of_le (ringSlot_lt hr) hr.le
    · exact Function.update_self _ _ _
  · exact List.mem_append_left _ hx

/-- **`RecycleBlock` in full**: the handle takes the place of one ring entry, whose chain `l` is
    freed, block by block; every other chain keeps its blocks. -/
theorem recycleBlock_spec {t : LinkTable} {p : Nat} {handles : List Nat} (hr : RingOk t)
    (h : t.Isolated (p :: handles)) :
    ∃ l, Chain t.next (t.addwRecyclePool t.ringSlot) l ∧ (∀ b ∈ l, t.Used b) ∧
      t.recycleBlock p = l.foldl pushFree (t.parkBlock p) ∧
      (t.recycleBlock p).Isolated handles ∧
      KeepsChains t (t.recycleBlock p) (handles ++ (t.parkBlock p).ring) := by
  have hpark : Owns (t.parkBlock p).next (t.parkBlock p).Used MAX_BLOCK_COUNT
      (t.addwRecyclePool t.ringSlot :: (handles ++ (t.parkBlock p).ring)) :=
    Owns.perm h (parkBlock_perm hr p handles)
  obtain ⟨l, hl, hlen, hok, hdis⟩ := hpark.head
  have heq : t.recycleBlock p = l.foldl pushFree (t.parkBlock p) := by
    rw [recycleBlock_eq]
    by_cases hold : t.addwRecyclePool t.ringSlot = 0
    · have hl0 : Chain (t.parkBlock p).next 0 l := hold ▸ hl
      rw [if_neg (by simpa using hold), hl0.unique Chain.zero, List.foldl_nil]
    · rw [if_pos hold, freeBlock_chain hl hold hlen hok]
  have hk : KeepsChains t (t.recycleBlock p) (handles ++ (t.parkBlock p).ring) := by
    intro b hb
    rw [heq]
    exact foldl_pushFree_blocks (t.parkBlock p) fun hbl => hdis b hbl hb
  obtain ⟨hhead, hpool, -⟩ := foldl_pushFree_head l (t.parkBlock p)
  refine ⟨l, hl, hok, heq, ?_, hk⟩
  have hring : (t.recycleBlock p).ring = (t.parkBlock p).ring := by rw [ring, ring, heq, hpool]
  show Owns _ _ _ (handles ++ (t.recycleBlock p).ring)
  rw [hring]
  exact Owns.keep (t := t.parkBlock p) hpark.tail hk (by rw [heq]; exact hhead.all)

theorem recycleBlock_head {t : LinkTable} {p : Nat} {handles : List Nat} (hr : RingOk t)
    (h : t.Isolated (p :: handles)) :
    SameHead t (t.recycleBlock p) ∧ RingOk (t.recycleBlock p) ∧
      (t.recycleBlock p).addwRecyclePool = (t.parkBlock p).addwRecyclePool ∧
      (t.recycleBlock p).ddwRecycleIndex = (t.parkBlock p).ddwRecycleIndex := by
  obtain ⟨l, -, -, heq, -, -⟩ := recycleBlock_spec hr h
  obtain ⟨hhead, hpool, hidx⟩ := foldl_pushFree_head l (t.parkBlock p)
  rw [heq]
  exact ⟨⟨hhead.all, hhead.size, hhead.last, hhead.poolSize⟩,
    (parkBlock_ringOk hr p).of_eq hhead.poolSize hpool, hpool, hidx⟩

/-- **`RecycleBlock` keeps the chains apart**: the handle leaves the live ones, every other live
    chain and the parked chain itself keep their blocks. -/
theorem recycleBlock_isolated {t : LinkTable} {p : Nat} {handles : List Nat} (hr : RingOk t)
    (h : t.Isolated (p :: handles)) :
    (t.recycleBlock p).Isolated handles ∧ RingOk (t.recycleBlock p) ∧
      SameHead t (t.recycleBlock p) ∧ KeepsChains t (t.recycleBlock p) (p :: handles) := by
  obtain ⟨-, -, -, -, hiso, hk⟩ := recycleBlock_spec hr h
  obtain ⟨hhead, hringOk, -, -⟩ := recycleBlock_head hr h
  exact ⟨hiso, hringOk, hhead, hk.mono (parkBlock_subset hr p handles)⟩

/-! ## Emptying the ring -/

/-- Clearing a slot takes its entry out of the ring and puts an empty one in its place. -/
theorem clearSlot_perm {t : LinkTable} {handles : List Nat} {i : Nat} (hr : RingOk t)
    (hi : i < t.dwRecyclePoolSize) :
    (0 :: (handles ++ t.ring)).Perm (t.addwRecyclePool i ::
      (handles ++ slots LT_MAX_RECYCLE_POOL_SIZE (Function.update t.addwRecyclePool i 0))) := by
  have hlt : i < LT_MAX_RECYCLE_POOL_SIZE := Nat.lt_of_lt_of_le hi hr.le
  exact List.perm_middle.symm.trans
    ((List.Perm.append_left handles (slots_update_perm t.addwRecyclePool 0 hlt).symm).trans
      List.perm_middle)

theorem emptySlot_isolated {t : LinkTable} {handles : List Nat} {i : Nat} (hr : RingOk t)
    (hi : i < t.dwRecyclePoolSize) (h : t.Isolated handles) :
    (t.emptySlot i).Isolated handles ∧ RingOk (t.emptySlot i) ∧ SameHead t (t.emptySlot i) ∧
      KeepsChains t (t.emptySlot i) handles ∧
      ∀ j, (t.emptySlot i).addwRecyclePool j = if j = i then 0 else t.addwRecyclePool j := by
  unfold emptySlot
  by_cases h0 : t.addwRecyclePool i = 0
  · rw [if_neg (by simpa using h0)]
    refine ⟨h, hr, SameHead.refl t, fun _ _ => rfl, fun j => ?_⟩
    split
    · next hj => rw [hj, h0]
    · rfl
  · rw [if_pos h0]
    obtain ⟨howns, hk, hhead, hpool, -⟩ :=
      freeBlock_owns h0 ((Owns.cons_zero h).perm (clearSlot_perm hr hi))
    refine ⟨?_, ⟨?_, ?_, ?_⟩, ⟨hhead.all, hhead.size, hhead.last, hhead.poolSize⟩,
      hk.mono (List.subset_append_left _ _), ?_⟩
    · show Owns _ _ _ (handles ++ slots _ (Function.update _ i 0))
      rw [hpool]
      exact howns
    · exact hhead.poolSize ▸ hr.pos
    · exact hhead.poolSize ▸ hr.le
    · intro j hj
      have hj' : t.dwRecyclePoolSize ≤ j := hhead.poolSize ▸ hj
      show Function.update _ i 0 j = 0
      rw [Function.update_of_ne (by omega), hpool]
      exact hr.rest j hj'
    · intro j
      show Function.update _ i 0 j = _
      rw [hpool, Function.update_apply]

/-- `EmptyRecyclePool` frees the parked chains and nothing else. -/
theorem emptyRecyclePool_isolated {t : LinkTable} {handles : List Nat} (hr : RingOk t)
    (h : t.Isolated handles) :
    t.emptyRecyclePool.Isolated handles ∧ SameHead t t.emptyRecyclePool ∧
      KeepsChains t t.emptyRecyclePool handles ∧
      ∀ j, t.emptyRecyclePool.addwRecyclePool j = 0 := by
  -- after the first `k` rounds the first `k` entries are gone
  have hfold : ∀ k, k ≤ t.dwRecyclePoolSize →
      let t' := (List.range k).foldl emptySlot t
      t'.Isolated handles ∧ RingOk t' ∧ SameHead t t' ∧ KeepsChains t t' handles ∧
        ∀ j, j < k → t'.addwRecyclePool j = 0 := by
    intro k
    induction k with
    | zero =>
      intro _
      exact ⟨h, hr, SameHead.refl t, fun _ _ => rfl, fun j hj => absurd hj (Nat.not_lt_zero j)⟩
    | succ k ih =>
      intro hk
      obtain ⟨h1, h2, h3, h4, h5⟩ := ih (by omega)
      rw [List.range_succ, List.foldl_append]
      have hk' : k < ((List.range k).foldl emptySlot t).dwRecyclePoolSize := by
        rw [h3.poolSize]; omega
      obtain ⟨g1, g2, g3, g4, g5⟩ := emptySlot_isolated h2 hk' h1
      refine ⟨g1, g2, h3.trans g3, h4.trans g4, fun j hj => ?_⟩
      rw [List.foldl_cons, List.foldl_nil, g5 j]
      split
      · rfl
      · next hne => exact h5 j (by omega)
  obtain ⟨h1, h2, h3, h4, h5⟩ := hfold t.dwRecyclePoolSize (Nat.le_refl _)
  refine ⟨h1, ⟨h3.all, h3.size, h3.last, h3.poolSize⟩, h4, fun j => ?_⟩
  rcases Nat.lt_or_ge j t.dwRecyclePoolSize with hj | hj
  · exact h5 j hj
  · exact h2.rest j (by rw [h3.poolSize]; exact hj)

end MysqlProxy.LinkTable
