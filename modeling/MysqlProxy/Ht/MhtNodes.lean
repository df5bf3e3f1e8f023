/-
  The nodes of a `MultiHashTable`, as values.

  A node occupies `ddwHashNodeSize` bytes of the flat array, so a write that stays inside its node
  is seen by that node only (`writeNode_away`).  From here on a node is its four fields: hash,
  access time, position, key (`nodeHashKey`, `nodeAccessTime`, `nodeLtPos`, `keyOf`); each update of
  the source is described by what it does to these fields of the one node it writes.

  `slot t h i` is the node of hash `h` in row `i`.  Slots of different rows are different nodes
  (`slot_row`), and `Search` goes through the slots of one hash (`search_spec`).
-/
import MysqlProxy.Ht.MultiHashTable
import MysqlProxy.Lib.Chain

namespace MysqlProxy.MultiHashTable

/-! ## Nodes do not overlap -/

/-- The key of a node. -/
def keyOf (t : MultiHashTable) (p : Nat) : List UInt8 := t.nodeKey p (t.nodeKeyLen p)

@[simp] theorem length_keyOf (t : MultiHashTable) (p : Nat) :
    (t.keyOf p).length = t.nodeKeyLen p := by
  simp [keyOf, nodeKey]

/-- Two nodes that agree byte for byte. -/
def SameBytes (t t' : MultiHashTable) (p : Nat) : Prop :=
  t'.ddwHashNodeSize = t.ddwHashNodeSize ∧
    ∀ i, i < t.ddwHashNodeSize → t'.ht (t.addr p + i) = t.ht (t.addr p + i)

theorem SameBytes.trans {t t' t'' : MultiHashTable} {p : Nat} (h : SameBytes t t' p)
    (h' : SameBytes t' t'' p) : SameBytes t t'' p := by
  have haddr : t'.addr p = t.addr p := by rw [addr, h.1]; rfl
  refine ⟨h'.1.trans h.1, fun i hi => ?_⟩
  rw [← h.2 i hi, ← haddr]
  exact h'.2 i (h.1 ▸ hi)

/-- The fields of a node that a search and a read depend on are the same in both tables. -/
structure SameNode (t t' : MultiHashTable) (p : Nat) : Prop where
  hash : t'.nodeHashKey p = t.nodeHashKey p
  pos : t'.nodeLtPos p = t.nodeLtPos p
  key : t'.keyOf p = t.keyOf p

theorem SameNode.refl (t : MultiHashTable) (p : Nat) : SameNode t t p := ⟨rfl, rfl, rfl⟩

theorem SameNode.trans {t t' t'' : MultiHashTable} {p : Nat} (h : SameNode t t' p)
    (h' : SameNode t' t'' p) : SameNode t t'' p :=
  ⟨h'.hash.trans h.hash, h'.pos.trans h.pos, h'.key.trans h.key⟩

theorem SameNode.keyLen {t t' : MultiHashTable} {p : Nat} (h : SameNode t t' p) :
    t'.nodeKeyLen p = t.nodeKeyLen p := by
  rw [← length_keyOf, ← length_keyOf, h.key]

/-- Room for a node header and a key of at least one byte. -/
def WideNodes (t : MultiHashTable) : Prop := sizeofMhtNode < t.ddwHashNodeSize

theorem SameBytes.sameNode {t t' : MultiHashTable} {p : Nat} (h : SameBytes t t' p)
    (hw : t.WideNodes) (hfit : t.nodeKeyLen p ≤ t.getMaxKeyLen) : SameNode t t' p := by
  obtain ⟨hsize, hbytes⟩ := h
  have hw' : 16 < t.ddwHashNodeSize := hw
  have haddr : t'.addr p = t.addr p := by rw [addr, hsize]; rfl
  have hread : ∀ off n, off + n ≤ t.ddwHashNodeSize →
      t'.ht.read (t.addr p + off) n = t.ht.read (t.addr p + off) n := by
    intro off n hoff
    refine Mem.read_congr fun i hi => ?_
    rw [Nat.add_assoc]
    exact hbytes (off + i) (by omega)
  have hlen : t'.nodeKeyLen p = t.nodeKeyLen p := by
    rw [nodeKeyLen, haddr, hread 14 1 (by omega)]; rfl
  unfold getMaxKeyLen sizeofMhtNode at hfit
  refine ⟨?_, ?_, ?_⟩
  · have := hread 0 4 (by omega)
    rw [Nat.add_zero] at this
    rw [nodeHashKey, haddr, this]; rfl
  · rw [nodeLtPos, haddr, hread 8 6 (by omega)]; rfl
  · rw [keyOf, nodeKey, hlen, haddr, hread 16 _ (by omega)]; rfl

/-- A write inside one node is not seen by another. -/
theorem writeNode_away {t : MultiHashTable} {p q off : Nat} {l : List UInt8} (hpq : q ≠ p)
    (hfit : off + l.length ≤ t.ddwHashNodeSize) : SameBytes t (t.writeNode p off l) q := by
  refine ⟨rfl, fun i hi => ?_⟩
  refine Mem.write_away t.ht ?_
  show t.ddwHashNodeSize * q + i < t.ddwHashNodeSize * p + off ∨
    t.ddwHashNodeSize * p + off + l.length ≤ t.ddwHashNodeSize * q + i
  rcases Nat.lt_or_gt_of_ne hpq with h | h
  · left
    have := Nat.mul_le_mul_left t.ddwHashNodeSize (show q + 1 ≤ p from h)
    rw [Nat.mul_add, Nat.mul_one] at this
    omega
  · right
    have := Nat.mul_le_mul_left t.ddwHashNodeSize (show p + 1 ≤ q from h)
    rw [Nat.mul_add, Nat.mul_one] at this
    omega

/-- The fields of the node itself, read at an offset the write does not touch. -/
theorem read_writeNode_away {t : MultiHashTable} {p off a n : Nat} {l : List UInt8}
    (h : a + n ≤ off ∨ off + l.length ≤ a) :
    (t.writeNode p off l).ht.read (t.addr p + a) n = t.ht.read (t.addr p + a) n :=
  Mem.read_write_away t.ht (by omega)

theorem read_writeNode_inside (t : MultiHashTable) (p off i n : Nat) (l : List UInt8)
    (h : i + n ≤ l.length) :
    (t.writeNode p off l).ht.read (t.addr p + (off + i)) n = (l.drop i).take n := by
  rw [← Nat.add_assoc]
  exact Mem.read_write_inside t.ht h

/-! ## The updates of one node -/

section Updates

variable {t : MultiHashTable} {p : Nat}

theorem wipeNode_ltPos : (t.wipeNode p).nodeLtPos p = 0 := by
  have h := read_writeNode_inside t p 0 8 6 (List.replicate 16 0) (by decide)
  rw [Nat.zero_add] at h
  show leNat ((t.writeNode p 0 _).ht.read (t.addr p + 8) 6) = 0
  rw [sizeofMhtNode, h]
  rfl

theorem wipeNode_keyLen : (t.wipeNode p).nodeKeyLen p = 0 := by
  have h := read_writeNode_inside t p 0 14 1 (List.replicate 16 0) (by decide)
  rw [Nat.zero_add] at h
  show leNat ((t.writeNode p 0 _).ht.read (t.addr p + 14) 1) = 0
  rw [sizeofMhtNode, h]
  rfl

/-- The position is a field of 48 bits. -/
theorem setLtPos_ltPos (v : Nat) : (t.setLtPos p v).nodeLtPos p = v % 2 ^ 48 := by
  have hself := read_writeNode_inside t p 8 0 6 (leBytes 6 v) (by simp)
  show leNat ((t.writeNode p 8 (leBytes 6 v)).ht.read (t.addr p + (8 + 0)) 6) = v % 2 ^ 48
  rw [hself, List.drop_zero, List.take_of_length_le (by simp), leNat_leBytes]
  rfl

/-- `setLtPos` changes the position and nothing else of the node. -/
theorem setLtPos_self {v : Nat} (hv : v < 2 ^ 48) :
    (t.setLtPos p v).nodeLtPos p = v ∧ (t.setLtPos p v).nodeHashKey p = t.nodeHashKey p ∧
      (t.setLtPos p v).keyOf p = t.keyOf p := by
  have hlen : (t.setLtPos p v).nodeKeyLen p = t.nodeKeyLen p :=
    congrArg leNat (read_writeNode_away (by simp))
  refine ⟨(setLtPos_ltPos v).trans (Nat.mod_eq_of_lt hv),
    congrArg leNat (read_writeNode_away (a := 0) (by simp)), ?_⟩
  rw [keyOf, hlen]
  exact read_writeNode_away (by simp)

theorem touch_self (now : Nat) :
    (t.touch now p).nodeLtPos p = t.nodeLtPos p ∧
      (t.touch now p).nodeHashKey p = t.nodeHashKey p ∧ (t.touch now p).keyOf p = t.keyOf p := by
  have hlen : (t.touch now p).nodeKeyLen p = t.nodeKeyLen p :=
    congrArg leNat (read_writeNode_away (by simp))
  refine ⟨congrArg leNat (read_writeNode_away (by simp)),
    congrArg leNat (read_writeNode_away (a := 0) (by simp)), ?_⟩
  rw [keyOf, hlen]
  exact read_writeNode_away (by simp)

end Updates

/-- What `commit` writes into a new node, for a key of any length. -/
theorem commit_written {t : MultiHashTable} {pos : Nat} {key : List UInt8} {w : Place} (now : Nat)
    (hnew : w.isNew = true) :
    let t' := t.commit now key w pos
    t'.nodeLtPos w.pDataNode = pos % 2 ^ 48 ∧
      t'.nodeHashKey w.pDataNode = (t.hashfunc key).toNat ∧
      t'.nodeKeyLen w.pDataNode = key.length % 256 ∧
      (∀ n, n ≤ key.length → t'.nodeKey w.pDataNode n = key.take n) ∧
      t'.ddwMaxUsedRow = max t.ddwMaxUsedRow w.emptyrow := by
  intro t'
  generalize hp : w.pDataNode = p at *
  generalize ht1 : t.setLtPos p pos = t1
  generalize ht2 : t1.setHashKey p (t.hashfunc key).toNat = t2
  generalize ht3 : t2.setAccessTime p (if t.cUseAccessSeq then 0 else now) = t3
  generalize ht4 : t3.setKeyLen p key.length = t4
  have ht' : t' = { t4.setKey p key with ddwMaxUsedRow := max t.ddwMaxUsedRow w.emptyrow } := by
    show t.commit now key w pos = _
    rw [commit, hnew, if_pos rfl, hp, ht1, ht2, ht3, ht4]
  have ha1 : t1.addr p = t.addr p := by rw [← ht1]; rfl
  have ha2 : t2.addr p = t.addr p := by rw [← ht2, ← ha1]; rfl
  have ha3 : t3.addr p = t.addr p := by rw [← ht3, ← ha2]; rfl
  have ha4 : t4.addr p = t.addr p := by rw [← ht4, ← ha3]; rfl
  -- each read goes back through the writes behind its own
  have hht : ∀ a n, t'.ht.read (t.addr p + a) n = (t4.setKey p key).ht.read (t4.addr p + a) n := by
    intro a n; rw [ht', ha4]
  have h5 : ∀ a n, a + n ≤ 16 → t'.ht.read (t.addr p + a) n = t4.ht.read (t4.addr p + a) n :=
    fun a n h => (hht a n).trans (read_writeNode_away (.inl h))
  have h4 : ∀ a n, a + n ≤ 14 → t4.ht.read (t4.addr p + a) n = t3.ht.read (t3.addr p + a) n := by
    intro a n h; rw [← ht4]; exact read_writeNode_away (.inl h)
  have h3 : ∀ a n, (a + n ≤ 4 ∨ 8 ≤ a) →
      t3.ht.read (t3.addr p + a) n = t2.ht.read (t2.addr p + a) n := by
    intro a n h; rw [← ht3]; exact read_writeNode_away (by rw [length_leBytes]; omega)
  have h2 : ∀ a n, 4 ≤ a → t2.ht.read (t2.addr p + a) n = t1.ht.read (t1.addr p + a) n := by
    intro a n h; rw [← ht2]; exact read_writeNode_away (by rw [length_leBytes]; omega)
  have haddr : t'.addr p = t.addr p := by rw [ht', ← ha4]; rfl
  refine ⟨?_, ?_, ?_, ?_, by rw [ht']⟩
  · rw [nodeLtPos, haddr, h5 8 6 (by omega), h4 8 6 (by omega), h3 8 6 (by omega),
      h2 8 6 (by omega), ← ht1]
    exact setLtPos_ltPos pos
  · rw [nodeHashKey, haddr]
    have h0 := h5 0 4 (by omega)
    rw [h4 0 4 (by omega), h3 0 4 (by omega)] at h0
    have hw := read_writeNode_inside t1 p 0 0 4 (leBytes 4 (t.hashfunc key).toNat) (by simp)
    have hread : t2.ht.read (t2.addr p + 0) 4 = leBytes 4 (t.hashfunc key).toNat := by
      have heq : t2.ht.read (t2.addr p + 0) 4 =
          (t1.writeNode p 0 (leBytes 4 (t.hashfunc key).toNat)).ht.read (t1.addr p + (0 + 0)) 4 := by
        rw [← ht2]; rfl
      rw [heq, hw, List.drop_zero]
      exact List.take_of_length_le (by simp)
    rw [Nat.add_zero] at h0
    rw [h0, hread, leNat_leBytes]
    exact Nat.mod_eq_of_lt (t.hashfunc key).toNat_lt
  · have hw := read_writeNode_inside t3 p 14 0 1 (leBytes 1 key.length) (by simp)
    have h14 : t4.ht.read (t4.addr p + 14) 1 = leBytes 1 key.length := by
      have heq : t4.ht.read (t4.addr p + 14) 1 =
          (t3.writeNode p 14 (leBytes 1 key.length)).ht.read (t3.addr p + (14 + 0)) 1 := by
        rw [← ht4]; rfl
      rw [heq, hw, List.drop_zero]
      exact List.take_of_length_le (by simp)
    rw [nodeKeyLen, haddr, h5 14 1 (by omega), h14, leNat_leBytes, Nat.pow_one]
  · intro n hn
    have hw := read_writeNode_inside t4 p 16 0 n key (by omega)
    rw [List.drop_zero] at hw
    rw [nodeKey, haddr, hht 16 n]
    exact hw

/-- What `commit` does to its node when it is a new one. -/
theorem commit_new {t : MultiHashTable} {pos : Nat} {key : List UInt8} {w : Place} (now : Nat)
    (hnew : w.isNew = true) (hpos : pos < 2 ^ 48) (hkey : key.length ≤ 255) :
    let t' := t.commit now key w pos
    t'.nodeLtPos w.pDataNode = pos ∧ t'.nodeHashKey w.pDataNode = (t.hashfunc key).toNat ∧
      t'.keyOf w.pDataNode = key ∧ t'.ddwMaxUsedRow = max t.ddwMaxUsedRow w.emptyrow := by
  obtain ⟨h1, h2, h3, h4, h5⟩ := @commit_written t pos key w now hnew
  rw [Nat.mod_eq_of_lt hpos] at h1
  rw [Nat.mod_eq_of_lt (show key.length < 256 by omega)] at h3
  refine ⟨h1, h2, ?_, h5⟩
  rw [keyOf, h3, h4 _ (Nat.le_refl _), List.take_length]

/-! ## Rows and slots -/

/-- The first node of row `i`. -/
def rowStart (t : MultiHashTable) : Nat → Nat
  | 0 => 0
  | i + 1 => t.rowStart i + t.auRowsNodeNum i

/-- The node of hash `h` in row `i`. -/
def slot (t : MultiHashTable) (h i : Nat) : Nat := t.rowStart i + h % t.auRowsNodeNum i

/-- The geometry of the rows: none is empty, together they are all nodes, and the header knows
    where each of them starts. -/
structure Rows (t : MultiHashTable) : Prop where
  wide : t.WideNodes
  pos : 0 < t.ddwRowNum
  row : ∀ i, i < t.ddwRowNum → 0 < t.auRowsNodeNum i
  total : t.rowStart t.ddwRowNum = t.ddwHashNodeNum
  starts : ∀ i, t.auRowsStartNode i = t.rowStart i

/-- The fields of the header that no operation changes. -/
structure SameShape (t t' : MultiHashTable) : Prop where
  num : t'.ddwHashNodeNum = t.ddwHashNodeNum
  size : t'.ddwHashNodeSize = t.ddwHashNodeSize
  rowNum : t'.ddwRowNum = t.ddwRowNum
  rows : t'.auRowsNodeNum = t.auRowsNodeNum
  starts : t'.auRowsStartNode = t.auRowsStartNode
  hash : t'.hashfunc = t.hashfunc

theorem SameShape.refl (t : MultiHashTable) : SameShape t t := ⟨rfl, rfl, rfl, rfl, rfl, rfl⟩

theorem SameShape.trans {t t' t'' : MultiHashTable} (h : SameShape t t') (h' : SameShape t' t'') :
    SameShape t t'' :=
  ⟨h'.num.trans h.num, h'.size.trans h.size, h'.rowNum.trans h.rowNum, h'.rows.trans h.rows,
    h'.starts.trans h.starts, h'.hash.trans h.hash⟩

theorem SameShape.maxKeyLen {t t' : MultiHashTable} (h : SameShape t t') :
    t'.getMaxKeyLen = t.getMaxKeyLen := by
  rw [getMaxKeyLen, h.size]; rfl

theorem SameShape.rowStart {t t' : MultiHashTable} (h : SameShape t t') (i : Nat) :
    t'.rowStart i = t.rowStart i := by
  induction i with
  | zero => rfl
  | succ i ih => rw [MultiHashTable.rowStart, ih, h.rows]; rfl

theorem SameShape.slot {t t' : MultiHashTable} (h : SameShape t t') (k i : Nat) :
    t'.slot k i = t.slot k i := by
  rw [MultiHashTable.slot, h.rowStart, h.rows]; rfl

theorem SameShape.toRows {t t' : MultiHashTable} (h : SameShape t t') (hr : Rows t) : Rows t' where
  wide := by unfold WideNodes; rw [h.size]; exact hr.wide
  pos := h.rowNum ▸ hr.pos
  row i hi := by rw [h.rows]; exact hr.row i (h.rowNum ▸ hi)
  total := by rw [h.rowNum, h.rowStart, h.num]; exact hr.total
  starts i := by rw [h.starts, h.rowStart]; exact hr.starts i

theorem rowStart_mono (t : MultiHashTable) {i j : Nat} (h : i ≤ j) : t.rowStart i ≤ t.rowStart j := by
  induction h with
  | refl => exact Nat.le_refl _
  | step _ ih => exact Nat.le_trans ih (Nat.le_add_right _ _)

/-- A slot lies in its row. -/
theorem slot_row {t : MultiHashTable} (hr : Rows t) {i : Nat} (hi : i < t.ddwRowNum) (h : Nat) :
    t.rowStart i ≤ t.slot h i ∧ t.slot h i < t.rowStart (i + 1) := by
  have := Nat.mod_lt h (hr.row i hi)
  unfold slot
  rw [rowStart]
  omega

theorem slot_lt_of_row {t : MultiHashTable} (htotal : t.rowStart t.ddwRowNum = t.ddwHashNodeNum)
    {i : Nat} (hi : i < t.ddwRowNum) (hrow : 0 < t.auRowsNodeNum i) (h : Nat) :
    t.slot h i < t.ddwHashNodeNum := by
  have h1 := Nat.mod_lt h hrow
  have h2 := t.rowStart_mono (show i + 1 ≤ t.ddwRowNum from hi)
  rw [htotal, rowStart] at h2
  unfold slot
  omega

theorem slot_lt {t : MultiHashTable} (hr : Rows t) {i : Nat} (hi : i < t.ddwRowNum) (h : Nat) :
    t.slot h i < t.ddwHashNodeNum := slot_lt_of_row hr.total hi (hr.row i hi) h

/-- Slots of different rows are different nodes. -/
theorem slot_inj {t : MultiHashTable} (hr : Rows t) {i j h k : Nat} (hi : i < t.ddwRowNum)
    (hj : j < t.ddwRowNum) (heq : t.slot h i = t.slot k j) : i = j := by
  have h1 := slot_row hr hi h
  have h2 := slot_row hr hj k
  rcases Nat.lt_trichotomy i j with hlt | hlt | hlt
  · have := t.rowStart_mono (show i + 1 ≤ j from hlt)
    omega
  · exact hlt
  · have := t.rowStart_mono (show j + 1 ≤ i from hlt)
    omega

/-! ## What `Search` finds -/

/-- The test of `Search` on a non-empty node. -/
def Matches (t : MultiHashTable) (key : List UInt8) (h p : Nat) : Prop :=
  t.nodeLtPos p ≠ 0 ∧ h = t.nodeHashKey p ∧ t.hnodeCmp key p = true

/-- The state of the search before row `i`. -/
structure SearchInv (t : MultiHashTable) (key : List UInt8) (h i : Nat) (r : Found) : Prop where
  node : r.node = none
  missed : ∀ j, j < i → ¬ t.Matches key h (t.slot h j)
  empty : ∀ e, r.emptyNode = some e → r.emptyRow < i ∧ e = t.slot h r.emptyRow ∧ t.nodeLtPos e = 0
  noEmpty : r.emptyNode = none → ∀ j, j < i → t.nodeLtPos (t.slot h j) ≠ 0
  oldest : ∀ o, r.oldestNode = some o → ∃ j, j < i ∧ o = t.slot h j ∧ t.nodeLtPos o ≠ 0
  someOldest : r.emptyNode = none → 0 < i → r.oldestNode ≠ none

/-- What `Search` returns for the rows `0 .. maxRow`. -/
structure SearchSpec (t : MultiHashTable) (key : List UInt8) (h maxRow : Nat) (r : Found) :
    Prop where
  found : ∀ p, r.node = some p → ∃ i, i ≤ maxRow ∧ p = t.slot h i ∧ t.Matches key h p
  missed : r.node = none → ∀ i, i ≤ maxRow → ¬ t.Matches key h (t.slot h i)
  empty : ∀ e, r.emptyNode = some e → e = t.slot h r.emptyRow ∧
    (r.emptyRow ≤ maxRow ∧ t.nodeLtPos e = 0 ∨
      r.emptyRow = maxRow + 1 ∧ maxRow + 1 < t.ddwRowNum)
  oldest : ∀ o, r.oldestNode = some o → (∃ i, i ≤ maxRow ∧ o = t.slot h i) ∧ t.nodeLtPos o ≠ 0 ∧
    ¬ t.Matches key h o
  someOldest : r.node = none → r.emptyNode = none → r.oldestNode ≠ none

section SearchStep

variable {t : MultiHashTable} {key : List UInt8} {h i : Nat} {r : Found}

/-- An empty node on the path. -/
theorem SearchInv.stepEmpty (hinv : SearchInv t key h i r)
    (he : t.nodeLtPos (t.slot h i) = 0) :
    SearchInv t key h (i + 1)
      (if r.emptyNode = none then { r with emptyNode := some (t.slot h i), emptyRow := i }
        else r) := by
  have hmissed : ∀ j, j < i + 1 → ¬ t.Matches key h (t.slot h j) := by
    intro j hj
    rcases Nat.lt_succ_iff_lt_or_eq.mp hj with hj | rfl
    · exact hinv.missed j hj
    · exact fun hm => hm.1 he
  have hold : ∀ o, r.oldestNode = some o → ∃ j, j < i + 1 ∧ o = t.slot h j ∧ t.nodeLtPos o ≠ 0 := by
    intro o ho
    obtain ⟨j, hj, hjo⟩ := hinv.oldest o ho
    exact ⟨j, by omega, hjo⟩
  split
  · refine ⟨hinv.node, hmissed, ?_, by simp, hold, by simp⟩
    intro e hee
    obtain rfl : t.slot h i = e := by simpa using hee
    exact ⟨Nat.lt_succ_self i, rfl, he⟩
  · next hne =>
    refine ⟨hinv.node, hmissed, ?_, fun h0 => absurd h0 hne, hold, fun h0 => absurd h0 hne⟩
    intro e hee
    obtain ⟨h1, h2⟩ := hinv.empty e hee
    exact ⟨by omega, h2⟩

/-- Another key's node on the path. -/
theorem SearchInv.stepOther (hinv : SearchInv t key h i r)
    (he : t.nodeLtPos (t.slot h i) ≠ 0) (hm : ¬ t.Matches key h (t.slot h i)) :
    SearchInv t key h (i + 1)
      (if r.oldestNode.all fun o => t.nodeAccessTime o > t.nodeAccessTime (t.slot h i) then
        { r with oldestNode := some (t.slot h i) } else r) := by
  have hmissed : ∀ j, j < i + 1 → ¬ t.Matches key h (t.slot h j) := by
    intro j hj
    rcases Nat.lt_succ_iff_lt_or_eq.mp hj with hj | rfl
    · exact hinv.missed j hj
    · exact hm
  have hempty : ∀ e, r.emptyNode = some e →
      r.emptyRow < i + 1 ∧ e = t.slot h r.emptyRow ∧ t.nodeLtPos e = 0 := by
    intro e hee
    obtain ⟨h1, h2⟩ := hinv.empty e hee
    exact ⟨by omega, h2⟩
  have hnoEmpty : r.emptyNode = none → ∀ j, j < i + 1 → t.nodeLtPos (t.slot h j) ≠ 0 := by
    intro h0 j hj
    rcases Nat.lt_succ_iff_lt_or_eq.mp hj with hj | rfl
    · exact hinv.noEmpty h0 j hj
    · exact he
  split
  · refine ⟨hinv.node, hmissed, hempty, hnoEmpty, ?_, by simp⟩
    intro o ho
    obtain rfl : t.slot h i = o := by simpa using ho
    exact ⟨i, Nat.lt_succ_self i, rfl, he⟩
  · next hno =>
    have hsome : r.oldestNode ≠ none := by
      intro hnone
      rw [hnone] at hno
      simp at hno
    refine ⟨hinv.node, hmissed, hempty, hnoEmpty, ?_, fun _ _ => hsome⟩
    intro o ho
    obtain ⟨j, hj, hjo⟩ := hinv.oldest o ho
    exact ⟨j, by omega, hjo⟩

end SearchStep

/-- The loop of `Search` from row `i` on. -/
theorem searchLoop_spec {t : MultiHashTable} {key : List UInt8} {h : Nat} (n : Nat) :
    ∀ {i : Nat} {r : Found}, 0 < i + n → SearchInv t key h i r →
    SearchSpec t key h (i + n - 1) (t.searchLoop key h n i (t.rowStart i) r) := by
  induction n with
  | zero =>
    intro i r hpos hinv
    have hold : ∀ o, r.oldestNode = some o → (∃ j, j ≤ i + 0 - 1 ∧ o = t.slot h j) ∧
        t.nodeLtPos o ≠ 0 ∧ ¬ t.Matches key h o := by
      intro o ho
      obtain ⟨j, hj, rfl, hne⟩ := hinv.oldest o ho
      exact ⟨⟨j, by omega, rfl⟩, hne, hinv.missed j hj⟩
    rw [searchLoop]
    split
    · next hcond =>
      refine ⟨?_, fun _ j hj => hinv.missed j (by omega), ?_, hold, by simp⟩
      · intro p hp
        simp [hinv.node] at hp
      · intro e he
        obtain rfl : t.slot h i = e := by simpa [slot] using he
        exact ⟨rfl, .inr ⟨by show i = _; omega, by omega⟩⟩
    · next hcond =>
      refine ⟨?_, fun _ j hj => hinv.missed j (by omega), ?_, hold,
        fun _ h0 => hinv.someOldest h0 (by omega)⟩
      · intro p hp
        simp [hinv.node] at hp
      · intro e he
        obtain ⟨h1, h2, h3⟩ := hinv.empty e he
        exact ⟨h2, .inl ⟨by omega, h3⟩⟩
  | succ n ih =>
    intro i r hpos hinv
    have hrow : t.rowStart i + t.auRowsNodeNum i = t.rowStart (i + 1) := rfl
    have hslot : t.rowStart i + h % t.auRowsNodeNum i = t.slot h i := rfl
    rw [searchLoop, hrow, hslot]
    have hidx : i + (n + 1) - 1 = i + 1 + n - 1 := by omega
    by_cases he : t.nodeLtPos (t.slot h i) = 0
    · rw [if_pos (by simpa [isHnodeEmpty] using he), hidx]
      exact ih (by omega) (hinv.stepEmpty he)
    · rw [if_neg (by simpa [isHnodeEmpty] using he)]
      by_cases hm : h = t.nodeHashKey (t.slot h i) ∧ t.hnodeCmp key (t.slot h i) = true
      · rw [if_pos hm]
        refine ⟨?_, by simp, ?_, ?_, by simp⟩
        · intro p hp
          obtain rfl : t.slot h i = p := by simpa using hp
          exact ⟨i, by omega, rfl, he, hm.1, hm.2⟩
        · intro e hee
          obtain ⟨h1, h2, h3⟩ := hinv.empty e hee
          exact ⟨h2, .inl ⟨by show r.emptyRow ≤ _; omega, h3⟩⟩
        · intro o ho
          obtain ⟨j, hj, rfl, hne⟩ := hinv.oldest o ho
          exact ⟨⟨j, by omega, rfl⟩, hne, hinv.missed j hj⟩
      · rw [if_neg hm, hidx]
        exact ih (by omega) (hinv.stepOther he fun hm' => hm ⟨hm'.2.1, hm'.2.2⟩)

/-- **`Search`** on a table whose highest used row is in range. -/
theorem search_spec {t : MultiHashTable} (hmax : t.ddwMaxUsedRow < t.ddwRowNum)
    (key : List UInt8) (h : Nat) :
    (t.search key h).2 = t ∧ SearchSpec t key h t.ddwMaxUsedRow (t.search key h).1 := by
  have hrepair : (if t.ddwMaxUsedRow ≥ t.ddwRowNum then
      { t with ddwMaxUsedRow := t.ddwRowNum - 1 } else t) = t := if_neg (by omega)
  unfold search
  rw [hrepair]
  refine ⟨rfl, ?_⟩
  have hstart : SearchInv t key h 0 {} :=
    ⟨rfl, by simp, by simp, by simp, by simp, by simp⟩
  have := searchLoop_spec (t.ddwMaxUsedRow + 1) (by omega) hstart
  simpa [rowStart] using this

end MysqlProxy.MultiHashTable
