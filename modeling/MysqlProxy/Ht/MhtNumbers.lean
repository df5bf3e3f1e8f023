/-
  The numbers of a block store that no call changes: how many blocks there are, and how large they are.

  `LinkTable::Init` writes them.  `AnyCall.numbers`: whatever is done to a table, with whatever
  arguments, they stay.
-/
import MysqlProxy.Ht.MhtFrame

namespace MysqlProxy

/-! ## The numbers of a block store -/

namespace LinkTable

/-- The numbers that `Init` gives a block store for good. -/
structure SameNumbers (t t' : LinkTable) : Prop where
  all : t'.ddwAllBlockCount = t.ddwAllBlockCount
  size : t'.ddwBlockSize = t.ddwBlockSize

namespace SameNumbers

theorem refl (t : LinkTable) : SameNumbers t t := ⟨rfl, rfl⟩

theorem trans {t t' t'' : LinkTable} (h : SameNumbers t t') (h' : SameNumbers t' t'') :
    SameNumbers t t'' := ⟨h'.all.trans h.all, h'.size.trans h.size⟩

theorem freeLoop (start : Nat) : ∀ (n p : Nat) (t : LinkTable),
    SameNumbers t (LinkTable.freeLoop start n p t).2 := by
  intro n
  induction n with
  | zero => exact fun _ t => refl t
  | succ n ih =>
    intro p t
    rw [LinkTable.freeLoop]
    split
    · exact refl t
    split
    · exact refl t
    · have h := ih (t.next p) (t.pushFree p)
      exact ⟨h.all, h.size⟩

theorem freeBlock (t : LinkTable) (p : Nat) : SameNumbers t (t.freeBlock p).2 := by
  unfold LinkTable.freeBlock
  split
  · exact refl t
  · exact freeLoop p _ p t

theorem recycleBlock (t : LinkTable) (p : Nat) : SameNumbers t (t.recycleBlock p) := by
  unfold LinkTable.recycleBlock
  dsimp only
  generalize (if t.ddwRecycleIndex ≥ t.dwRecyclePoolSize then 0 else t.ddwRecycleIndex) = i
  split
  · have h := freeBlock { t with
      addwRecyclePool := Function.update t.addwRecyclePool i p
      ddwRecycleIndex := (i + 1) % t.dwRecyclePoolSize } (t.addwRecyclePool i)
    exact ⟨h.all, h.size⟩
  · exact ⟨rfl, rfl⟩

theorem takeFree : ∀ (n p : Nat) (t : LinkTable), SameNumbers t (LinkTable.takeFree n p t).2 := by
  intro n
  induction n with
  | zero => exact fun _ t => refl t
  | succ n ih =>
    intro p t
    rw [LinkTable.takeFree]
    split
    · refine trans ?_ (ih _ _)
      split
      · exact ⟨rfl, rfl⟩
      · exact refl t
    · exact refl t

theorem scanLoop : ∀ (j : Nat) (s : Scan), SameNumbers s.table (LinkTable.scanLoop j s).table := by
  intro j
  induction j with
  | zero => exact fun s => refl s.table
  | succ j ih =>
    intro s
    rw [LinkTable.scanLoop]
    split
    · exact refl s.table
    · refine trans ?_ (ih _)
      rw [scanStep]
      split
      · exact ⟨rfl, rfl⟩
      · exact refl s.table

theorem scanResult (j : Nat) (s : Scan) :
    SameNumbers s.table (LinkTable.scanLoop j s).result.2 := by
  have h := scanLoop j s
  rw [Scan.result]
  split
  · exact h
  · exact ⟨h.all, h.size⟩

theorem getEmptyBlock (t : LinkTable) (iCount : Nat) : SameNumbers t (t.getEmptyBlock iCount).2 := by
  unfold LinkTable.getEmptyBlock
  by_cases hbig : iCount > MAX_BLOCK_COUNT ∨ (iCount : Int) > int32 t.ddwFreeBlockCount
  · rw [if_pos hbig]
    exact refl t
  · rw [if_neg hbig]
    have h := takeFree iCount t.ddwFirstFreePos t
    rcases htake : LinkTable.takeFree iCount t.ddwFirstFreePos t with ⟨_ | q, t'⟩
    · rw [htake] at h
      show SameNumbers t (t'.scanEmpty iCount).2
      rw [scanEmpty]
      have hscan := scanResult (int32 t'.ddwAllBlockCount).toNat ⟨iCount, t'.ddwLastEmpty, 0, t'⟩
      exact trans h hscan
    · rw [htake] at h
      exact ⟨h.all, h.size⟩

theorem fillLoop : ∀ (n : Nat) (f : Fill), SameNumbers f.table (LinkTable.fillLoop n f).2.table := by
  intro n
  induction n with
  | zero => exact fun f => refl f.table
  | succ n ih =>
    intro f
    rw [LinkTable.fillLoop]
    split
    · exact refl f.table
    split
    · exact refl f.table
    · have h := ih
        { ddwCurPos := f.ddwNextPos
          ddwNextPos := (f.table.fillBlock f.ddwNextPos (f.rest.take f.table.BLOCK_DATA_LEN)).next
            f.ddwNextPos
          rest := f.rest.drop f.table.BLOCK_DATA_LEN
          table := f.table.fillBlock f.ddwNextPos (f.rest.take f.table.BLOCK_DATA_LEN) }
      exact ⟨h.all, h.size⟩

theorem setData (t : LinkTable) (p : Nat) (data : List UInt8) : SameNumbers t (t.setData p data).2 := by
  unfold LinkTable.setData
  dsimp only
  split
  · exact refl t
  have hget := getEmptyBlock t (t.blockCount data.length)
  generalize t.getEmptyBlock (t.blockCount data.length) = r at hget
  obtain ⟨e | q, t1⟩ := r
  · exact hget
  dsimp only at hget ⊢
  have hfill := fillLoop data.length ⟨0, q, data, t1⟩
  generalize LinkTable.fillLoop data.length ⟨0, q, data, t1⟩ = r at hfill
  obtain ⟨e | u, f⟩ := r
  · exact hget.trans hfill
  dsimp only at hfill ⊢
  split
  · exact hget.trans hfill
  · refine (hget.trans hfill).trans ?_
    split
    · have h := recycleBlock ((f.table.setNext f.ddwCurPos 0).setNext 0 f.ddwNextPos) p
      exact ⟨h.all, h.size⟩
    · exact ⟨rfl, rfl⟩

end SameNumbers

end LinkTable

namespace MultiHashTable

open LinkTable

section Numbers

variable {t t' : MultiHashTable}

theorem search_numbers (t : MultiHashTable) (k : List UInt8) (h : Nat) :
    SameNumbers t.lt (t.search k h).2.lt := by
  obtain ⟨-, -, hlt⟩ := search_shape t k h
  rw [hlt]
  exact .refl t.lt

theorem eraseNode_numbers (t : MultiHashTable) (p : Nat) : SameNumbers t.lt (t.eraseNode p).lt :=
  .recycleBlock t.lt _

theorem place_numbers (t : MultiHashTable) (k : List UInt8) (evict : Bool) :
    SameNumbers t.lt (t.place k evict).2.lt := by
  have hsearch := search_numbers t k (t.hashfunc k).toNat
  unfold place
  generalize t.search k (t.hashfunc k).toNat = s at hsearch ⊢
  obtain ⟨r0, t0⟩ := s
  have herase : SameNumbers t.lt (t0.eraseOldestOnPath r0 evict).2.lt := by
    refine hsearch.trans ?_
    unfold eraseOldestOnPath
    split
    · split
      · exact eraseNode_numbers t0 _
      · exact .refl t0.lt
    · exact .refl t0.lt
  dsimp only
  generalize t0.eraseOldestOnPath r0 evict = s at herase ⊢
  obtain ⟨r, t1⟩ := s
  dsimp only at herase ⊢
  split
  · exact herase
  split
  · exact herase
  split
  · exact herase
  split
  · exact herase
  · exact herase.trans (eraseNode_numbers t1 _)

theorem searchAndEraseOldestOne_numbers {p : Nat} {r : Except MhtError Unit}
    (h : t.searchAndEraseOldestOne p = some (r, t')) : SameNumbers t.lt t'.lt := by
  unfold searchAndEraseOldestOne at h
  dsimp only at h
  split at h
  · cases h
  · cases h
    exact .refl t.lt
  · cases h
    exact .recycleBlock t.lt _

theorem storeLoop_numbers {data : List UInt8} {evict : Bool} {p : Nat} : ∀ {fuel : Nat}
    {t : MultiHashTable} {oldest : Option Nat} {r : Except MhtError Nat},
    storeLoop data evict p fuel oldest t = some (r, t') → SameNumbers t.lt t'.lt := by
  intro fuel
  induction fuel with
  | zero => exact fun h => nomatch h
  | succ fuel ih =>
    intro t oldest r h
    rw [storeLoop] at h
    have hset := SameNumbers.setData t.lt (t.nodeLtPos p) data
    generalize t.lt.setData (t.nodeLtPos p) data = s at h hset
    obtain ⟨e | pos, lt⟩ := s
    · dsimp only at h hset
      split at h
      · cases h
        exact hset
      split at h
      · cases h
        exact hset
      cases oldest with
      | some o =>
        cases h
        exact hset.trans (.recycleBlock lt _)
      | none =>
        dsimp only at h
        split at h
        · cases h
        · rename_i heq
          cases h
          exact hset.trans (searchAndEraseOldestOne_numbers heq)
        · rename_i heq
          exact (hset.trans (searchAndEraseOldestOne_numbers heq)).trans (ih h)
    · cases h
      exact hset

theorem commit_numbers (t : MultiHashTable) (now : Nat) (k : List UInt8) (w : Place) (pos : Nat) :
    SameNumbers t.lt (t.commit now k w pos).lt := by
  unfold commit
  dsimp only
  split <;> exact ⟨rfl, rfl⟩

/-- **No call changes the numbers of the block store.** -/
theorem AnyCall.numbers (h : AnyCall t t') : SameNumbers t.lt t'.lt := by
  cases h with
  | setData now k data evict heq =>
    have hplace := place_numbers t k evict
    unfold MultiHashTable.setData at heq
    split at heq
    · cases heq
      exact .refl t.lt
    generalize t.place k evict = s at hplace heq
    obtain ⟨e | w, t1⟩ := s
    · cases heq
      exact hplace
    dsimp only at heq
    split at heq
    · cases heq
    · rename_i hstore
      cases heq
      exact hplace.trans (storeLoop_numbers hstore)
    · rename_i hstore
      cases heq
      exact (hplace.trans (storeLoop_numbers hstore)).trans (commit_numbers _ now k w _)
  | getData now k n upd =>
    have hsearch := search_numbers t k (t.hashfunc k).toNat
    unfold MultiHashTable.getData
    split
    · exact .refl t.lt
    generalize t.search k (t.hashfunc k).toNat = s at hsearch ⊢
    obtain ⟨r, t0⟩ := s
    dsimp only
    split
    · exact hsearch
    · rename_i p hnode
      have htouch : SameNumbers t.lt (if upd then t0.touch now p else t0).lt := by
        split
        · exact hsearch.trans ⟨rfl, rfl⟩
        · exact hsearch
      generalize (if upd then t0.touch now p else t0) = t1 at htouch ⊢
      split
      · split <;> exact htouch
      · exact htouch
  | eraseData k =>
    have hsearch := search_numbers t k (t.hashfunc k).toNat
    unfold MultiHashTable.eraseData
    split
    · exact .refl t.lt
    generalize t.search k (t.hashfunc k).toNat = s at hsearch ⊢
    obtain ⟨r, t0⟩ := s
    dsimp only
    split
    · exact hsearch.trans (eraseNode_numbers t0 _)
    · exact hsearch
  | eraseBadNode k =>
    have hsearch := search_numbers t k (t.hashfunc k).toNat
    unfold MultiHashTable.eraseBadNode
    split
    · exact .refl t.lt
    generalize t.search k (t.hashfunc k).toNat = s at hsearch ⊢
    obtain ⟨r, t0⟩ := s
    dsimp only
    split
    · exact hsearch.trans ⟨rfl, rfl⟩
    · exact hsearch
  | get it =>
    unfold MultiHashTable.get
    split
    · exact .refl t.lt
    · split
      · exact ⟨rfl, rfl⟩
      · exact .refl t.lt

theorem AnyRun.numbers (h : AnyRun t t') : SameNumbers t.lt t'.lt :=
  run_invariant (I := fun s => SameNumbers t.lt s.lt) h (.refl t.lt) fun hinv hs => hinv.trans hs.numbers

end Numbers

end MultiHashTable

end MysqlProxy
