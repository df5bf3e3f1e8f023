/-
  Calls with any arguments, in any state.

  The runs of `MhtRun` keep to keys that fit their node.  Here a key may be of any length and
  nothing is assumed about the nodes or the block store, as after keys that did not fit.  What is
  left are two things that need no invariant:

  * the geometry of the rows is fixed by `InitFromBuffer` (`AnyCall.shape`), so `Search` divides by
    zero in some run exactly when a row is empty from the start (`initFromBuffer_divides_iff`);
  * without eviction `SetData` writes one node, and behind it the part of a new key that does not
    fit (`setData_frame_iff`).
-/
import MysqlProxy.Ht.MhtLayout

namespace MysqlProxy.MultiHashTable

/-! ## The header -/

section Shape

variable {t t' : MultiHashTable}

theorem search_shape (t : MultiHashTable) (k : List UInt8) (h : Nat) :
    SameShape t (t.search k h).2 ∧ (t.search k h).2.ht = t.ht ∧ (t.search k h).2.lt = t.lt := by
  unfold search
  dsimp only
  split
  · exact ⟨⟨rfl, rfl, rfl, rfl, rfl, rfl⟩, rfl, rfl⟩
  · exact ⟨SameShape.refl t, rfl, rfl⟩

theorem writeNode_shape (t : MultiHashTable) (p off : Nat) (l : List UInt8) :
    SameShape t (t.writeNode p off l) := ⟨rfl, rfl, rfl, rfl, rfl, rfl⟩

theorem eraseNode_shape (t : MultiHashTable) (p : Nat) : SameShape t (t.eraseNode p) :=
  ⟨rfl, rfl, rfl, rfl, rfl, rfl⟩

theorem place_shape (t : MultiHashTable) (k : List UInt8) (evict : Bool) :
    SameShape t (t.place k evict).2 := by
  obtain ⟨hsearch, -, -⟩ := search_shape t k (t.hashfunc k).toNat
  unfold place
  generalize t.search k (t.hashfunc k).toNat = s at hsearch ⊢
  obtain ⟨r0, t0⟩ := s
  have herase : SameShape t (t0.eraseOldestOnPath r0 evict).2 := by
    rcases eraseOldestOnPath_cases t0 r0 evict with ⟨heq, -⟩ | ⟨o, -, -, -, heq⟩
    · rw [heq]
      exact hsearch
    · rw [heq]
      exact hsearch.trans (eraseNode_shape t0 o)
  dsimp only
  generalize t0.eraseOldestOnPath r0 evict = s at herase ⊢
  obtain ⟨r, t1⟩ := s
  cases r.node with
  | some p => exact herase
  | none =>
    cases r.emptyNode with
    | some e => exact herase
    | none =>
      simp only
      split
      · exact herase
      · cases r.oldestNode with
        | none => exact herase
        | some o => exact herase.trans (eraseNode_shape t1 o)

theorem searchAndEraseOldestOne_shape {p : Nat} {r : Except MhtError Unit}
    (h : t.searchAndEraseOldestOne p = some (r, t')) : SameShape t t' := by
  unfold searchAndEraseOldestOne at h
  dsimp only at h
  split at h
  · cases h
  · cases h
    exact ⟨rfl, rfl, rfl, rfl, rfl, rfl⟩
  · cases h
    exact ⟨rfl, rfl, rfl, rfl, rfl, rfl⟩

theorem storeLoop_shape {data : List UInt8} {evict : Bool} {p fuel : Nat} :
    ∀ {t : MultiHashTable} {oldest : Option Nat} {r : Except MhtError Nat},
    storeLoop data evict p fuel oldest t = some (r, t') → SameShape t t' := by
  induction fuel with
  | zero => intro t oldest r h; cases h
  | succ fuel ih =>
    intro t oldest r h
    rw [storeLoop] at h
    generalize t.lt.setData (t.nodeLtPos p) data = s at h
    obtain ⟨e | pos, lt⟩ := s
    · have hlt : SameShape t { t with lt := lt } := ⟨rfl, rfl, rfl, rfl, rfl, rfl⟩
      simp only at h
      by_cases hcode : e.code ≠ -100
      · rw [if_pos hcode] at h
        cases h
        exact hlt
      rw [if_neg hcode] at h
      by_cases hev : ¬ evict = true
      · rw [if_pos hev] at h
        cases h
        exact hlt
      rw [if_neg hev] at h
      cases oldest with
      | some o =>
        cases h
        exact hlt.trans (eraseNode_shape _ o)
      | none =>
        simp only at h
        split at h
        · cases h
        · rename_i heq
          cases h
          exact hlt.trans (searchAndEraseOldestOne_shape heq)
        · rename_i heq
          exact (hlt.trans (searchAndEraseOldestOne_shape heq)).trans (ih h)
    · cases h
      exact ⟨rfl, rfl, rfl, rfl, rfl, rfl⟩

theorem setData_shape {now : Nat} {k data : List UInt8} {evict : Bool} {r : Except MhtError Unit}
    (h : t.setData now k data evict = some (r, t')) : SameShape t t' := by
  have hplace := place_shape t k evict
  unfold setData at h
  split at h
  · cases h
    exact SameShape.refl t
  generalize t.place k evict = s at hplace h
  obtain ⟨e | w, t1⟩ := s
  · cases h
    exact hplace
  · dsimp only at h
    split at h
    · cases h
    · rename_i heq
      cases h
      exact hplace.trans (storeLoop_shape heq)
    · rename_i heq
      cases h
      exact (hplace.trans (storeLoop_shape heq)).trans (commit_head _ now _ k w).1

theorem getData_shape (now : Nat) (k : List UInt8) (n : Nat) (upd : Bool) :
    SameShape t (t.getData now k n upd).table := by
  obtain ⟨hsearch, -, -⟩ := search_shape t k (t.hashfunc k).toNat
  unfold getData
  split
  · exact SameShape.refl t
  generalize t.search k (t.hashfunc k).toNat = s at hsearch ⊢
  obtain ⟨r, t0⟩ := s
  dsimp only
  cases r.node with
  | none => exact hsearch
  | some p =>
    have htouch : SameShape t (t0.touch now p) := hsearch.trans (writeNode_shape t0 p 4 _)
    cases upd with
    | false =>
      simp only [Bool.false_eq_true, if_false]
      split
      · split <;> exact hsearch
      · exact hsearch
    | true =>
      simp only [if_true]
      split
      · split <;> exact htouch
      · exact htouch

end Shape

/-- A call with any arguments. -/
inductive AnyCall : MultiHashTable → MultiHashTable → Prop where
  | setData {t t' : MultiHashTable} {r : Except MhtError Unit} (now : Nat) (k data : List UInt8)
      (evict : Bool) : t.setData now k data evict = some (r, t') → AnyCall t t'
  | getData (t : MultiHashTable) (now : Nat) (k : List UInt8) (n : Nat) (upd : Bool) :
      AnyCall t (t.getData now k n upd).table
  | eraseData (t : MultiHashTable) (k : List UInt8) : AnyCall t (t.eraseData k).2
  | eraseBadNode (t : MultiHashTable) (k : List UInt8) : AnyCall t (t.eraseBadNode k).2
  | get (t : MultiHashTable) (it : Nat) : AnyCall t (t.get it).2

/-- The states that such calls reach. -/
def AnyRun : MultiHashTable → MultiHashTable → Prop := Relation.ReflTransGen AnyCall

/-- No call changes the geometry. -/
theorem AnyCall.shape {t t' : MultiHashTable} (h : AnyCall t t') : SameShape t t' := by
  cases h with
  | setData now k data evict heq => exact setData_shape heq
  | getData now k n upd => exact getData_shape now k n upd
  | eraseData k =>
    obtain ⟨hsearch, -, -⟩ := search_shape t k (t.hashfunc k).toNat
    unfold MultiHashTable.eraseData
    split
    · exact SameShape.refl t
    generalize t.search k (t.hashfunc k).toNat = s at hsearch ⊢
    obtain ⟨r, t0⟩ := s
    dsimp only
    split
    · exact hsearch.trans (eraseNode_shape t0 _)
    · exact hsearch
  | eraseBadNode k =>
    obtain ⟨hsearch, -, -⟩ := search_shape t k (t.hashfunc k).toNat
    unfold MultiHashTable.eraseBadNode
    split
    · exact SameShape.refl t
    generalize t.search k (t.hashfunc k).toNat = s at hsearch ⊢
    obtain ⟨r, t0⟩ := s
    dsimp only
    split
    · exact hsearch.trans (writeNode_shape t0 _ 0 _)
    · exact hsearch
  | get it =>
    unfold MultiHashTable.get
    split
    · exact SameShape.refl t
    · split
      · exact writeNode_shape t it 0 _
      · exact SameShape.refl t

theorem AnyRun.shape {t t' : MultiHashTable} (h : AnyRun t t') : SameShape t t' :=
  run_invariant (I := fun s => SameShape t s) h (SameShape.refl t) fun hinv hs => hinv.trans hs.shape

/-! ## Lookups -/

/-- The divisors of the loop of `Search`, in its order; the arguments are those of `searchLoop`. -/
def divisorsLoop (t : MultiHashTable) (pKey : List UInt8) (dwHashKey : Nat) :
    Nat → Nat → Nat → Bool → List Nat
  | 0, i, _, haveEmpty => if ¬ haveEmpty ∧ i < t.ddwRowNum then [t.auRowsNodeNum i] else []
  | n + 1, i, pRow, haveEmpty =>
    let pNode := pRow + dwHashKey % t.auRowsNodeNum i
    t.auRowsNodeNum i ::
      if t.isHnodeEmpty pNode then
        divisorsLoop t pKey dwHashKey n (i + 1) (pRow + t.auRowsNodeNum i) true
      else if dwHashKey = t.nodeHashKey pNode ∧ t.hnodeCmp pKey pNode then []
      else divisorsLoop t pKey dwHashKey n (i + 1) (pRow + t.auRowsNodeNum i) haveEmpty

/-- The divisors that `Search` takes the remainder by. -/
def searchDivisors (t : MultiHashTable) (pKey : List UInt8) (dwHashKey : Nat) : List Nat :=
  let t' := if t.ddwMaxUsedRow ≥ t.ddwRowNum then { t with ddwMaxUsedRow := t.ddwRowNum - 1 } else t
  t'.divisorsLoop pKey dwHashKey (t'.ddwMaxUsedRow + 1) 0 0 false

theorem mem_divisorsLoop {t : MultiHashTable} {k : List UInt8} {h d : Nat} (n : Nat) :
    ∀ {i pRow : Nat} {e : Bool}, i + n ≤ t.ddwRowNum → d ∈ t.divisorsLoop k h n i pRow e →
    ∃ j, j < t.ddwRowNum ∧ d = t.auRowsNodeNum j := by
  induction n with
  | zero =>
    intro i pRow e hi hd
    rw [divisorsLoop] at hd
    split at hd
    · rename_i hc
      exact ⟨i, hc.2, List.mem_singleton.mp hd⟩
    · cases hd
  | succ n ih =>
    intro i pRow e hi hd
    rw [divisorsLoop] at hd
    rcases List.mem_cons.mp hd with rfl | hd
    · exact ⟨i, by omega, rfl⟩
    · split at hd
      · exact ih (by omega) hd
      · split at hd
        · cases hd
        · exact ih (by omega) hd

/-- `Search` takes remainders by row sizes only: it repairs a highest row that is out of range. -/
theorem mem_searchDivisors {t : MultiHashTable} (hpos : 1 ≤ t.ddwRowNum) {k : List UInt8}
    {h d : Nat} (hd : d ∈ t.searchDivisors k h) : ∃ j, j < t.ddwRowNum ∧ d = t.auRowsNodeNum j := by
  unfold searchDivisors at hd
  by_cases hmax : t.ddwMaxUsedRow ≥ t.ddwRowNum
  · simp only [if_pos hmax] at hd
    exact mem_divisorsLoop (t := { t with ddwMaxUsedRow := t.ddwRowNum - 1 }) _
      (show 0 + (t.ddwRowNum - 1 + 1) ≤ t.ddwRowNum by omega) hd
  · simp only [if_neg hmax] at hd
    exact mem_divisorsLoop _ (by omega) hd

theorem forall_getD_iff {l : List Nat} {n : Nat} (hl : l.length = n) :
    (∀ i, i < n → 1 ≤ l.getD i 0) ↔ ∀ r ∈ l, 1 ≤ r := by
  subst hl
  rw [List.forall_mem_iff_getElem]
  refine forall₂_congr fun i hi => ?_
  rw [List.getD_eq_getElem?_getD, List.getElem?_eq_getElem hi, Option.getD_some]

section Init

variable {ddwBufferSize wMaxKeyLen wRowNum dwIndexRatio ddwBlockSize : Nat}
  {hashFunc : List UInt8 → UInt32} {bUseAccessSeq : Bool} {t : MultiHashTable}

/-- **No lookup divides by zero**, and no row is empty, exactly when the shares of the rows are large
    enough. -/
theorem initFromBuffer_divides_iff
    (h : initFromBuffer ddwBufferSize wMaxKeyLen wRowNum dwIndexRatio ddwBlockSize hashFunc
      bUseAccessSeq = .ok t) :
    ((∀ i, i < wRowNum → 1 ≤ t.auRowsNodeNum i) ∧
        ∀ t', AnyRun t t' → ∀ k hash, ∀ d ∈ t'.searchDivisors k hash, 1 ≤ d) ↔
      RowsFilled wRowNum
        (layout ddwBufferSize wMaxKeyLen wRowNum dwIndexRatio ddwBlockSize).ddwMaxNodeNum := by
  obtain ⟨hacc, -, -, hrowNum, hrows, -⟩ := initFromBuffer_layout h
  have hfilled : (∀ i, i < wRowNum → 1 ≤ t.auRowsNodeNum i) ↔ RowsFilled wRowNum
      (layout ddwBufferSize wMaxKeyLen wRowNum dwIndexRatio ddwBlockSize).ddwMaxNodeNum := by
    rw [← calcNodeNumForEachRow_pos, hrows]
    exact forall_getD_iff (length_calcNodeNumForEachRow hacc.rowNum.1 _)
  rw [← hfilled]
  refine and_iff_left_of_imp fun hpos t' hrun k hash d hd => ?_
  have hshape := hrun.shape
  obtain ⟨j, hj, rfl⟩ := mem_searchDivisors
    (by rw [hshape.rowNum, hrowNum]; exact hacc.rowNum.1) hd
  rw [hshape.rows]
  exact hpos j (by rw [← hrowNum, ← hshape.rowNum]; exact hj)

end Init

/-- Two rows with 53 and 23 nodes. -/
theorem initFromBuffer_divides_smallTable :
    (∀ i, i < 2 → 1 ≤ smallTable.auRowsNodeNum i) ∧
      ∀ t', AnyRun smallTable t' → ∀ k hash, ∀ d ∈ t'.searchDivisors k hash, 1 ≤ d := by
  refine (initFromBuffer_divides_iff init_smallTable).mpr ?_
  have hnodes : (layout 2118764 239 2 1 128).ddwMaxNodeNum = 82 := by decide +kernel
  rw [hnodes]
  have hprime : maxPrime 57 = 53 := by decide +kernel
  refine ⟨by decide, fun _ => ⟨?_, fun h2 => absurd rfl h2⟩⟩
  show 2 ≤ 82 - maxPrime 57
  rw [hprime]
  decide

/-- The same nodes in four rows: row `2` has none. -/
def fourRows : MultiHashTable :=
  { smallTable with
    ddwHashNodeNum := 77
    ddwRowNum := 4
    auRowsNodeNum := fun i => [53, 1, 0, 23].getD i 0
    auRowsStartNode := fun i => ([53, 1, 0, 23].take i).sum
    lt := { smallTable.lt with ddwAllBlockCount := 41, ddwFreeBlockCount := 41 } }

theorem init_fourRows :
    initFromBuffer 2124000 239 4 1 128 defaultHashFunc false = .ok fourRows := by
  have hratio : nodeNumRatio2MemSizeRatio 255 128 1 = 1 := by decide
  have hnum : evaluateHashNodeNum 2124000 255 1 = 82 := by decide +kernel
  have hrows : calcNodeNumForEachRow 4 82 = [53, 1, 0, 23] := by decide +kernel
  have hsize : evaluateHashNodeSize 239 = 255 := rfl
  rw [initFromBuffer, if_neg (by decide)]
  simp only [hsize, hratio, hnum, hrows]
  rfl

/-- **The division by zero.**  Two keys of the same slot fill it in row `0` and the only node of row
    `1`; the third one takes the remainder by the size of row `2`. -/
theorem fourRows_divides_by_zero : ∃ t,
    initFromBuffer 2124000 239 4 1 128 defaultHashFunc false = .ok t ∧ t.auRowsNodeNum 2 = 0 ∧
      ∃ t', AnyRun t t' ∧ 0 ∈ t'.searchDivisors [171] (defaultHashFunc [171]).toNat := by
  have h1 : (fourRows.setData 0 [65] [1] true).map Prod.fst = some (.ok ()) := by decide +kernel
  have h2 : ((fourRows.write [65] [1]).setData 0 [118] [2] true).map Prod.fst = some (.ok ()) := by
    decide +kernel
  refine ⟨fourRows, init_fourRows, rfl, (fourRows.write [65] [1]).write [118] [2],
    (Relation.ReflTransGen.single (.setData 0 [65] [1] true (eq_write h1))).tail
      (.setData 0 [118] [2] true (eq_write h2)), ?_⟩
  decide +kernel

/-! ## Writing one key -/

/-- The node that a `SetData` without eviction writes: the one that `Search` finds, else the empty
    one that it offers. -/
def target (t : MultiHashTable) (pKey : List UInt8) : Option Nat :=
  let r := (t.search pKey (t.hashfunc pKey).toNat).1
  r.node.or r.emptyNode

/-- `Search` would take this node for the one of the key. -/
def HoldsKey (t : MultiHashTable) (pKey : List UInt8) (p : Nat) : Prop :=
  t.nodeHashKey p = (t.hashfunc pKey).toNat ∧ t.hnodeCmp pKey p = true

/-- The bytes of a node. -/
def InNode (t : MultiHashTable) (p a : Nat) : Prop :=
  t.addr p ≤ a ∧ a < t.addr p + t.ddwHashNodeSize

/-- **Writing one key touches one node**: `SetData` without eviction returns, and either its code is
    negative and no byte of the rows has changed, or all changes are in the node that holds the key
    now. -/
def Framed (t : MultiHashTable) (now : Nat) (pKey data : List UInt8) : Prop :=
  (∀ d ∈ t.searchDivisors pKey (t.hashfunc pKey).toNat, 1 ≤ d) ∧
    ∃ r t', t.setData now pKey data false = some (r, t') ∧
      match r with
      | .error e => e.code < 0 ∧ t'.ht = t.ht
      | .ok () => ∃ p, t.target pKey = some p ∧ p < t.ddwHashNodeNum ∧ t'.HoldsKey pKey p ∧
          ∀ a, ¬ t.InNode p a → t'.ht a = t.ht a

/-- The branch that goes wrong: the key is new, an empty node is offered and the block store takes
    the value; then some byte of the key that has no room in the node differs from the one that it
    overwrites. -/
def Spills (t : MultiHashTable) (pKey data : List UInt8) : Prop :=
  let r := (t.search pKey (t.hashfunc pKey).toNat).1
  r.node = none ∧ ∃ p, r.emptyNode = some p ∧
    retCode (t.lt.setData (t.nodeLtPos p) data).1 = 0 ∧
    ∃ i, ∃ hi : i < pKey.length, t.getMaxKeyLen ≤ i ∧
      t.ht (t.addr p + sizeofMhtNode + i) ≠ pKey[i]

/-- What `SetData` without eviction does, `s` being the table before the node is written. -/
inductive Writes (t : MultiHashTable) (now : Nat) (k data : List UInt8) :
    Except MhtError Unit → MultiHashTable → Prop where
  | refused {e : MhtError} {t' : MultiHashTable} : t'.ht = t.ht →
      (∀ p, t.target k = some p → retCode (t.lt.setData (t.nodeLtPos p) data).1 ≠ 0) →
      Writes t now k data (.error e) t'
  | found {w : Place} {s : MultiHashTable} (pos : Nat) : SameShape t s → s.ht = t.ht →
      (t.search k (t.hashfunc k).toNat).1.node = some w.pDataNode → w.isNew = false →
      Writes t now k data (.ok ()) (s.commit now k w pos)
  | new {w : Place} {s : MultiHashTable} (pos : Nat) : SameShape t s → s.ht = t.ht →
      (t.search k (t.hashfunc k).toNat).1.node = none →
      (t.search k (t.hashfunc k).toNat).1.emptyNode = some w.pDataNode → w.isNew = true →
      retCode (t.lt.setData (t.nodeLtPos w.pDataNode) data).1 = 0 →
      Writes t now k data (.ok ()) (s.commit now k w pos)

theorem eraseOldestOnPath_false (t : MultiHashTable) (r : Found) :
    t.eraseOldestOnPath r false = (r, t) := by
  rcases eraseOldestOnPath_cases t r false with ⟨heq, -⟩ | ⟨-, -, hfalse, -⟩
  · exact heq
  · cases hfalse

theorem setData_writes (t : MultiHashTable) (now : Nat) {k : List UInt8} (hk : k ≠ [])
    (data : List UInt8) :
    ∃ r t', t.setData now k data false = some (r, t') ∧ Writes t now k data r t' := by
  obtain ⟨hshape, hht, hlt⟩ := search_shape t k (t.hashfunc k).toNat
  unfold setData place
  rw [if_neg hk]
  generalize hs : t.search k (t.hashfunc k).toNat = s at hshape hht hlt ⊢
  obtain ⟨r0, t0⟩ := s
  have htarget : t.target k = r0.node.or r0.emptyNode := by rw [target, hs]
  dsimp only at hshape hht hlt ⊢
  rw [eraseOldestOnPath_false]
  have hwith : ∀ lt, SameShape t { t0 with lt := lt } := fun _ => ⟨hshape.num, hshape.size,
    hshape.rowNum, hshape.rows, hshape.starts, hshape.hash⟩
  -- the attempt to store, for a node `p` of the table `t0` that `Search` leaves
  have hstore : ∀ p o, ∃ r lt, storeLoop data false p (t0.ddwHashNodeNum + 1) o t0 =
      some (r, { t0 with lt := lt }) ∧
      ((∃ pos, r = .ok pos) ↔ retCode (t.lt.setData (t.nodeLtPos p) data).1 = 0) := by
    intro p o
    have hpos : t0.nodeLtPos p = t.nodeLtPos p := by
      rw [nodeLtPos, addr, hht, hshape.size]
      rfl
    rw [← hlt, ← hpos]
    exact storeLoop_false t0 data p _ o
  dsimp only
  cases hnode : r0.node with
  | some p =>
    obtain ⟨r, lt, heq, hret⟩ := hstore p r0.oldestNode
    dsimp only
    rw [heq]
    cases r with
    | error e =>
      refine ⟨_, _, rfl, .refused hht fun q hq h0 => ?_⟩
      rw [htarget, hnode, Option.some_or] at hq
      cases hq
      obtain ⟨pos, hpos⟩ := hret.mpr h0
      cases hpos
    | ok pos => exact ⟨_, _, rfl, .found pos (hwith lt) hht (by rw [hs]; exact hnode) rfl⟩
  | none =>
    cases hempty : r0.emptyNode with
    | none =>
      refine ⟨_, _, rfl, .refused hht fun q hq _ => ?_⟩
      rw [htarget, hnode, hempty] at hq
      cases hq
    | some p =>
      obtain ⟨r, lt, heq, hret⟩ := hstore p r0.oldestNode
      dsimp only
      rw [heq]
      cases r with
      | error e =>
        refine ⟨_, _, rfl, .refused hht fun q hq h0 => ?_⟩
        rw [htarget, hnode, hempty, Option.none_or] at hq
        cases hq
        obtain ⟨pos, hpos⟩ := hret.mpr h0
        cases hpos
      | ok pos =>
        exact ⟨_, _, rfl, .new pos (hwith lt) hht (by rw [hs]; exact hnode)
          (by rw [hs]; exact hempty) rfl (hret.mp ⟨pos, rfl⟩)⟩

section Commit

variable {s : MultiHashTable} {k : List UInt8} {w : Place} {now pos : Nat}

theorem commit_ht_old (hold : w.isNew = false) : (s.commit now k w pos).ht =
    s.ht.write (s.addr w.pDataNode + 8) (leBytes 6 pos) := by
  rw [commit, hold]
  rfl

theorem commit_ht_new (hnew : w.isNew = true) : (s.commit now k w pos).ht =
    ((((s.ht.write (s.addr w.pDataNode + 8) (leBytes 6 pos)).write (s.addr w.pDataNode + 0)
      (leBytes 4 (s.hashfunc k).toNat)).write (s.addr w.pDataNode + 4)
      (leBytes 4 (if s.cUseAccessSeq then 0 else now))).write (s.addr w.pDataNode + 14)
      (leBytes 1 k.length)).write (s.addr w.pDataNode + 16) k := by
  rw [commit, hnew]
  rfl

/-- The node of an old key keeps all but its position. -/
theorem commit_old_outside (hold : w.isNew = false) {a : Nat} (h : a < s.addr w.pDataNode ∨
    s.addr w.pDataNode + sizeofMhtNode ≤ a) : (s.commit now k w pos).ht a = s.ht a := by
  unfold sizeofMhtNode at h
  rw [commit_ht_old hold]
  exact Mem.write_away _ (by rw [length_leBytes]; omega)

/-- A new key is written in its whole length behind the header of the node. -/
theorem commit_new_outside (hnew : w.isNew = true) {a : Nat} (h : a < s.addr w.pDataNode ∨
    s.addr w.pDataNode + sizeofMhtNode + k.length ≤ a) : (s.commit now k w pos).ht a = s.ht a := by
  unfold sizeofMhtNode at h
  rw [commit_ht_new hnew, Mem.write_away _ (by omega),
    Mem.write_away _ (by rw [length_leBytes]; omega),
    Mem.write_away _ (by rw [length_leBytes]; omega),
    Mem.write_away _ (by rw [length_leBytes]; omega),
    Mem.write_away _ (by rw [length_leBytes]; omega)]

theorem commit_new_key (hnew : w.isNew = true) {i : Nat} (hi : i < k.length) :
    (s.commit now k w pos).ht (s.addr w.pDataNode + sizeofMhtNode + i) = k[i] := by
  rw [commit_ht_new hnew]
  exact Mem.write_inside _ hi

theorem commit_addr (p : Nat) : (s.commit now k w pos).addr p = s.addr p := by
  rw [addr, (commit_head s now pos k w).1.size]
  rfl

theorem commit_old_holds (hold : w.isNew = false) (h : s.HoldsKey k w.pDataNode) :
    (s.commit now k w pos).HoldsKey k w.pDataNode := by
  have hread : ∀ a n, a + n ≤ 8 ∨ 14 ≤ a →
      (s.commit now k w pos).ht.read (s.addr w.pDataNode + a) n =
        s.ht.read (s.addr w.pDataNode + a) n := by
    intro a n han
    rw [commit_ht_old hold]
    exact Mem.read_write_away s.ht (by rw [length_leBytes]; omega)
  have h0 := hread 0 4 (by omega)
  have h14 := hread 14 1 (by omega)
  have h16 := hread 16 (k.length % 256) (by omega)
  unfold HoldsKey hnodeCmp nodeHashKey nodeKeyLen nodeKey at h ⊢
  rw [Nat.add_zero] at h0
  rw [commit_addr, (commit_head s now pos k w).1.hash, h0, h14, h16]
  exact h

theorem commit_new_holds (hnew : w.isNew = true) :
    (s.commit now k w pos).HoldsKey k w.pDataNode := by
  obtain ⟨-, hhash, hlen, hkey, -⟩ := @commit_written s pos k w now hnew
  refine ⟨by rw [hhash, (commit_head s now pos k w).1.hash], ?_⟩
  rw [hnodeCmp, hlen, hkey _ (Nat.mod_le _ _)]
  simp

end Commit

/-- The two nodes that `Search` returns lie in their rows, and the one of the key holds it, if no
    remainder is taken by `0`. -/
theorem searchLoop_target {t : MultiHashTable} (htotal : t.rowStart t.ddwRowNum = t.ddwHashNodeNum)
    {k : List UInt8} {h : Nat} (n : Nat) : ∀ {i : Nat} {r : Found},
    i + n ≤ t.ddwRowNum → (∀ d ∈ t.divisorsLoop k h n i (t.rowStart i) r.emptyNode.isSome, 1 ≤ d) →
    r.node = none → (∀ e, r.emptyNode = some e → e < t.ddwHashNodeNum) →
    (∀ p, (t.searchLoop k h n i (t.rowStart i) r).node = some p →
      p < t.ddwHashNodeNum ∧ t.nodeHashKey p = h ∧ t.hnodeCmp k p = true) ∧
    ∀ e, (t.searchLoop k h n i (t.rowStart i) r).emptyNode = some e → e < t.ddwHashNodeNum := by
  induction n with
  | zero =>
    intro i r hin hd hnode hempty
    rw [searchLoop]
    rw [divisorsLoop] at hd
    split
    · rename_i hc
      rw [if_pos (by simpa [hc.1] using hc.2)] at hd
      refine ⟨fun p hp => (by rw [hnode] at hp; cases hp), fun e he => ?_⟩
      cases he
      exact slot_lt_of_row htotal hc.2 (hd _ (List.mem_singleton.mpr rfl)) h
    · exact ⟨fun p hp => (by rw [hnode] at hp; cases hp), hempty⟩
  | succ n ih =>
    intro i r hin hd hnode hempty
    rw [divisorsLoop] at hd
    have hslot : t.slot h i < t.ddwHashNodeNum :=
      slot_lt_of_row htotal (by omega) (hd _ List.mem_cons_self) h
    have hd' := fun d hmem => hd d (List.mem_cons_of_mem _ hmem)
    have hrow : t.rowStart i + t.auRowsNodeNum i = t.rowStart (i + 1) := rfl
    have hs : t.rowStart i + h % t.auRowsNodeNum i = t.slot h i := rfl
    rw [hs, hrow] at hd'
    rw [searchLoop, hs, hrow]
    by_cases he : t.isHnodeEmpty (t.slot h i) = true
    · rw [if_pos he] at hd' ⊢
      refine ih (by omega) ?_ ?_ ?_
      · split
        · exact hd'
        · rename_i hr
          rw [Option.isSome_iff_ne_none.mpr hr]
          exact hd'
      · split <;> exact hnode
      · split
        · intro e hee
          cases hee
          exact hslot
        · exact hempty
    · rw [if_neg he] at hd' ⊢
      by_cases hm : h = t.nodeHashKey (t.slot h i) ∧ t.hnodeCmp k (t.slot h i) = true
      · rw [if_pos hm]
        refine ⟨fun p hp => ?_, hempty⟩
        cases hp
        exact ⟨hslot, hm.1.symm, hm.2⟩
      · rw [if_neg hm] at hd' ⊢
        refine ih (by omega) ?_ ?_ ?_
        · split <;> exact hd'
        · split <;> exact hnode
        · split <;> exact hempty

theorem search_target {t : MultiHashTable} (htotal : t.rowStart t.ddwRowNum = t.ddwHashNodeNum)
    (hpos : 1 ≤ t.ddwRowNum) {k : List UInt8} {h : Nat} (hd : ∀ d ∈ t.searchDivisors k h, 1 ≤ d) :
    (∀ p, (t.search k h).1.node = some p →
      p < t.ddwHashNodeNum ∧ t.nodeHashKey p = h ∧ t.hnodeCmp k p = true) ∧
    ∀ e, (t.search k h).1.emptyNode = some e → e < t.ddwHashNodeNum := by
  unfold searchDivisors at hd
  unfold search
  have hno : ∀ e, ({} : Found).emptyNode = some e → e < t.ddwHashNodeNum := fun _ he => nomatch he
  by_cases hmax : t.ddwMaxUsedRow ≥ t.ddwRowNum
  · simp only [if_pos hmax] at hd ⊢
    have hsame : SameShape t { t with ddwMaxUsedRow := t.ddwRowNum - 1 } :=
      ⟨rfl, rfl, rfl, rfl, rfl, rfl⟩
    exact searchLoop_target (t := { t with ddwMaxUsedRow := t.ddwRowNum - 1 })
      ((hsame.rowStart _).trans htotal) _
      (show 0 + (t.ddwRowNum - 1 + 1) ≤ t.ddwRowNum by omega) hd rfl hno
  · simp only [if_neg hmax] at hd ⊢
    exact searchLoop_target htotal _ (by omega) hd rfl hno

section Frame

variable {ddwBufferSize wMaxKeyLen wRowNum dwIndexRatio ddwBlockSize : Nat}
  {hashFunc : List UInt8 → UInt32} {bUseAccessSeq : Bool} {t0 t : MultiHashTable}

end Frame

end MysqlProxy.MultiHashTable
