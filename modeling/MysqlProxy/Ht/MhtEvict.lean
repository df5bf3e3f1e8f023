/-
  `SearchAndEraseOldestOne`, and why the write loop of `SetData` ends.

  The scan goes once round the table from `ddwEraseIterator` and stops early at the hundredth node
  it counts.  What it counts in the first `j` rounds is `scanned p j`, so what it looks at in all is
  `firstHundred p`, and the node it remembers is the first one there with the smallest access time
  (`ScanState`).  The scan compares with `(uint32_t)-1` at first, so a node with that access time is
  never chosen.

  Every eviction leaves one non-empty node less, and the write loop asks the block store once more
  after each: it makes at most one round more than there are nodes (`storeLoop_ends`).
-/
import MysqlProxy.Ht.MhtInv

namespace MysqlProxy.MultiHashTable

/-! ## The order of the scan -/

/-- A node that `SearchAndEraseOldestOne` may erase. -/
def Candidate (t : MultiHashTable) (p q : Nat) : Prop :=
  q < t.ddwHashNodeNum ∧ q ≠ p ∧ t.nodeLtPos q ≠ 0

/-- The node that the scan looks at in round `j`. -/
def turn (t : MultiHashTable) (j : Nat) : Nat :=
  if t.ddwEraseIterator + j < t.ddwHashNodeNum then t.ddwEraseIterator + j
  else t.ddwEraseIterator + j - t.ddwHashNodeNum

/-- Every node is met in one turn. -/
theorem exists_turn {t : MultiHashTable} (hI : t.ddwEraseIterator < t.ddwHashNodeNum) {q : Nat}
    (hq : q < t.ddwHashNodeNum) : ∃ j, j < t.ddwHashNodeNum ∧ t.turn j = q := by
  unfold turn
  rcases Nat.lt_or_ge q t.ddwEraseIterator with h | h
  · refine ⟨q + t.ddwHashNodeNum - t.ddwEraseIterator, by omega, ?_⟩
    split <;> omega
  · refine ⟨q - t.ddwEraseIterator, by omega, ?_⟩
    split <;> omega

/-- The nodes that count in the first `j` rounds: non-empty ones other than `p`. -/
def scanned (t : MultiHashTable) (p j : Nat) : List Nat :=
  ((List.range j).map t.turn).filter fun q => q ≠ p ∧ ¬ t.isHnodeEmpty q

/-- The first 100 non-empty nodes other than `p` in cyclic order from the iterator. -/
def firstHundred (t : MultiHashTable) (p : Nat) : List Nat := (t.scanned p t.ddwHashNodeNum).take 100

/-- The first element of `l` for which `f` is smallest. -/
def FirstMin (f : Nat → Nat) (l : List Nat) (o : Nat) : Prop :=
  ∃ l₁ l₂, l = l₁ ++ o :: l₂ ∧ (∀ q ∈ l₁, f o < f q) ∧ ∀ q ∈ l₂, f o ≤ f q

theorem FirstMin.mem {f : Nat → Nat} {l : List Nat} {o : Nat} (h : FirstMin f l o) : o ∈ l := by
  obtain ⟨l₁, l₂, rfl, -, -⟩ := h
  exact List.mem_append_right l₁ List.mem_cons_self

theorem FirstMin.le {f : Nat → Nat} {l : List Nat} {o q : Nat} (h : FirstMin f l o) (hq : q ∈ l) :
    f o ≤ f q := by
  obtain ⟨l₁, l₂, rfl, h1, h2⟩ := h
  rcases List.mem_append.mp hq with hq | hq
  · exact Nat.le_of_lt (h1 q hq)
  · rcases List.mem_cons.mp hq with rfl | hq
    · exact Nat.le_refl _
    · exact h2 q hq

section Scan

variable {t : MultiHashTable} {p : Nat}

theorem turn_lt (hI : t.ddwEraseIterator < t.ddwHashNodeNum) {j : Nat} (hj : j < t.ddwHashNodeNum) :
    t.turn j < t.ddwHashNodeNum := by
  unfold turn
  split <;> omega

theorem scanned_succ (j : Nat) : t.scanned p (j + 1) =
    t.scanned p j ++ if t.turn j ≠ p ∧ ¬ t.isHnodeEmpty (t.turn j) then [t.turn j] else [] := by
  rw [scanned, scanned, List.range_succ, List.map_append, List.filter_append]
  congr 1
  by_cases hc : t.turn j ≠ p ∧ ¬ t.isHnodeEmpty (t.turn j)
  · rw [if_pos hc]
    exact List.filter_cons_of_pos (by simpa using hc)
  · rw [if_neg hc]
    exact List.filter_cons_of_neg (by simpa using hc)

theorem scanned_mono {j n : Nat} (h : j ≤ n) : t.scanned p j <+: t.scanned p n := by
  obtain ⟨d, rfl⟩ := Nat.exists_eq_add_of_le h
  rw [scanned, scanned, List.range_add, List.map_append, List.filter_append]
  exact List.prefix_append _ _

theorem mem_scanned (hI : t.ddwEraseIterator < t.ddwHashNodeNum) {q : Nat} :
    q ∈ t.scanned p t.ddwHashNodeNum ↔ t.Candidate p q := by
  rw [scanned, List.mem_filter, List.mem_map, Candidate]
  simp only [isHnodeEmpty, decide_eq_true_eq]
  constructor
  · rintro ⟨⟨j, hj, rfl⟩, hc⟩
    exact ⟨turn_lt hI (List.mem_range.mp hj), hc⟩
  · rintro ⟨hq, hc⟩
    obtain ⟨j, hj, rfl⟩ := exists_turn hI hq
    exact ⟨⟨j, List.mem_range.mpr hj, rfl⟩, hc⟩

theorem candidate_of_firstHundred (hI : t.ddwEraseIterator < t.ddwHashNodeNum) {q : Nat}
    (hq : q ∈ t.firstHundred p) : t.Candidate p q :=
  (mem_scanned hI).mp (List.mem_of_mem_take hq)

/-! ## The scan -/

/-- The variables of the loop after the nodes `l` have been counted. -/
structure ScanState (t : MultiHashTable) (l : List Nat) (cnt : Nat) (oldest : Option Nat)
    (oldesttime : Nat) : Prop where
  counted : cnt = l.length
  young : oldest = none → oldesttime = 2 ^ 32 - 1 ∧ ∀ q ∈ l, 2 ^ 32 - 1 ≤ t.nodeAccessTime q
  old : ∀ o, oldest = some o → oldesttime = t.nodeAccessTime o ∧
    t.nodeAccessTime o < 2 ^ 32 - 1 ∧ FirstMin t.nodeAccessTime l o

theorem ScanState.start : ScanState t [] 0 none (2 ^ 32 - 1) :=
  ⟨rfl, fun _ => ⟨rfl, by simp⟩, by simp⟩

/-- One node more. -/
theorem ScanState.count {l : List Nat} {cnt oldesttime : Nat} {oldest : Option Nat}
    (h : ScanState t l cnt oldest oldesttime) (q : Nat) :
    ScanState t (l ++ [q]) (cnt + 1)
      (if t.nodeAccessTime q < oldesttime then some q else oldest)
      (if t.nodeAccessTime q < oldesttime then t.nodeAccessTime q else oldesttime) := by
  refine ⟨by rw [h.counted, List.length_append, List.length_singleton], fun hn => ?_, fun o ho => ?_⟩
  · by_cases hlt : t.nodeAccessTime q < oldesttime
    · rw [if_pos hlt] at hn
      cases hn
    · rw [if_neg hlt] at hn ⊢
      obtain ⟨htime, hall⟩ := h.young hn
      refine ⟨htime, fun x hx => ?_⟩
      rcases List.mem_append.mp hx with hx | hx
      · exact hall x hx
      · rw [List.mem_singleton.mp hx]
        omega
  · by_cases hlt : t.nodeAccessTime q < oldesttime
    · -- `q` is older than all before it
      rw [if_pos hlt] at ho ⊢
      obtain rfl : q = o := Option.some.inj ho
      have hbefore : t.nodeAccessTime q < 2 ^ 32 - 1 ∧
          ∀ x ∈ l, t.nodeAccessTime q < t.nodeAccessTime x := by
        cases hold : oldest with
        | none =>
          obtain ⟨htime, hall⟩ := h.young hold
          exact ⟨by omega, fun x hx => by have := hall x hx; omega⟩
        | some o' =>
          obtain ⟨htime, hyoung, hmin⟩ := h.old o' hold
          exact ⟨by omega, fun x hx => by have := hmin.le hx; omega⟩
      exact ⟨rfl, hbefore.1, l, [], rfl, hbefore.2, by simp⟩
    · rw [if_neg hlt] at ho ⊢
      obtain ⟨htime, hyoung, l₁, l₂, rfl, h1, h2⟩ := h.old o ho
      refine ⟨htime, hyoung, l₁, l₂ ++ [q], by simp, h1, fun x hx => ?_⟩
      rcases List.mem_append.mp hx with hx | hx
      · exact h2 x hx
      · rw [List.mem_singleton.mp hx]
        omega

/-- One round of the loop. -/
theorem ScanState.round {j cnt oldesttime : Nat} {oldest : Option Nat}
    (h : ScanState t (t.scanned p j) cnt oldest oldesttime) :
    let candidate := t.turn j ≠ p ∧ ¬ t.isHnodeEmpty (t.turn j)
    let older := candidate ∧ t.nodeAccessTime (t.turn j) < oldesttime
    ScanState t (t.scanned p (j + 1)) (if candidate then cnt + 1 else cnt)
      (if older then some (t.turn j) else oldest)
      (if older then t.nodeAccessTime (t.turn j) else oldesttime) := by
  intro candidate older
  rw [scanned_succ]
  by_cases hc : candidate
  · have hcount := h.count (t.turn j)
    have holder : older ↔ t.nodeAccessTime (t.turn j) < oldesttime :=
      ⟨fun ho => ho.2, fun ho => ⟨hc, ho⟩⟩
    rw [if_pos hc, if_pos hc]
    simpa only [holder] using hcount
  · have ho : ¬ older := fun ho => hc ho.1
    rw [if_neg hc, if_neg hc, if_neg ho, if_neg ho, List.append_nil]
    exact h

/-- **The scan** stops, in range, with the variables that belong to the first hundred nodes. -/
theorem eraseScan_spec (hI : t.ddwEraseIterator < t.ddwHashNodeNum) (fuel : Nat) :
    ∀ {j cnt oldesttime : Nat} {oldest : Option Nat}, j < t.ddwHashNodeNum →
    t.ddwHashNodeNum ≤ fuel + j → ScanState t (t.scanned p j) cnt oldest oldesttime → cnt ≤ 100 →
    ∃ it r time, t.eraseScan p fuel (t.turn j) cnt oldest oldesttime = some (it, r) ∧
      it < t.ddwHashNodeNum ∧
      ScanState t (t.firstHundred p) (t.firstHundred p).length r time := by
  induction fuel with
  | zero => intro j cnt oldesttime oldest hj hfuel; omega
  | succ fuel ih =>
    intro j cnt oldesttime oldest hj hfuel h hle
    rw [eraseScan]
    by_cases hcnt : cnt ≥ 100
    · -- the hundred are complete
      have hfirst : t.firstHundred p = t.scanned p j := by
        rw [firstHundred, List.prefix_iff_eq_take.mp (scanned_mono (Nat.le_of_lt hj)), ← h.counted,
          show cnt = 100 by omega]
      rw [if_pos hcnt, hfirst]
      exact ⟨t.turn j, oldest, oldesttime, rfl, turn_lt hI hj, rfl, h.young, h.old⟩
    · rw [if_neg hcnt]
      have hround := h.round
      have hnext : (if t.turn j + 1 ≥ t.ddwHashNodeNum then 0 else t.turn j + 1) =
          if j + 1 = t.ddwHashNodeNum then t.ddwEraseIterator else t.turn (j + 1) := by
        unfold turn
        split_ifs <;> omega
      have hle' : (if t.turn j ≠ p ∧ ¬ t.isHnodeEmpty (t.turn j) then cnt + 1 else cnt) ≤ 100 := by
        split <;> omega
      simp only [hnext]
      by_cases hlast : j + 1 = t.ddwHashNodeNum
      · -- the whole table has been looked at
        rw [if_pos hlast, if_pos rfl]
        have hfirst : t.firstHundred p = t.scanned p (j + 1) := by
          rw [firstHundred, ← hlast]
          exact List.take_of_length_le (hround.counted ▸ hle')
        rw [hfirst]
        exact ⟨_, _, _, rfl, hI, rfl, hround.young, hround.old⟩
      · rw [if_neg hlast, if_neg ?_]
        · exact ih (by omega) (by omega) hround hle'
        · unfold turn
          split <;> omega

/-! ## Evicting -/

/-- `t'` is `t` with the iterator somewhere else in the table. -/
def Moved (t t' : MultiHashTable) : Prop :=
  ∃ it, it < t.ddwHashNodeNum ∧ t' = { t with ddwEraseIterator := it }

/-- What `SearchAndEraseOldestOne` comes to, as an equation. -/
theorem searchAndEraseOldestOne_eq (hI : t.ddwEraseIterator < t.ddwHashNodeNum) (p : Nat) :
    ∃ t', Moved t t' ∧
      ((t.searchAndEraseOldestOne p = some (.error .noMoreNode, t') ∧
          ∀ q ∈ t.firstHundred p, 2 ^ 32 - 1 ≤ t.nodeAccessTime q) ∨
        ∃ o, t.searchAndEraseOldestOne p = some (.ok (), t'.eraseNode o) ∧
          t.nodeAccessTime o < 2 ^ 32 - 1 ∧ FirstMin t.nodeAccessTime (t.firstHundred p) o) := by
  have hturn : t.turn 0 = t.ddwEraseIterator := by unfold turn; rw [if_pos (by omega)]; rfl
  obtain ⟨it, r, time, heq, hit, hstate⟩ := eraseScan_spec (p := p) hI
    (100 * t.ddwHashNodeNum + 1) (j := 0) (by omega) (by omega) ScanState.start (by decide)
  rw [hturn] at heq
  have hstart : (if t.ddwEraseIterator ≥ t.ddwHashNodeNum then 0 else t.ddwEraseIterator) =
      t.ddwEraseIterator := if_neg (by omega)
  refine ⟨{ t with ddwEraseIterator := it }, ⟨it, hit, rfl⟩, ?_⟩
  unfold searchAndEraseOldestOne
  simp only [hstart, heq]
  cases r with
  | none => exact .inl ⟨rfl, (hstate.young rfl).2⟩
  | some o =>
    obtain ⟨-, hyoung, hmin⟩ := hstate.old o rfl
    exact .inr ⟨o, rfl, hyoung, hmin⟩

end Scan

/-- The `int` that `SearchAndEraseOldestOne` returns; its one failure is `-7` (which `SetData` turns
    into its own code). -/
def eraseOldestCode : Except MhtError Unit → Int
  | .ok _ => 0
  | .error _ => -7

/-- Node `o` is given up: its chain goes to the recycler, its header is cleared, and no byte of
    another node changes. -/
structure Evicted (t t' : MultiHashTable) (o : Nat) : Prop where
  lt : t'.lt = t.lt.recycleBlock (t.nodeLtPos o)
  cleared : ∀ i, i < sizeofMhtNode → t'.ht (t.addr o + i) = 0
  key : ∀ i, sizeofMhtNode ≤ i → t'.ht (t.addr o + i) = t.ht (t.addr o + i)
  others : ∀ q, q ≠ o → SameBytes t t' q

/-- The non-empty nodes. -/
def nonEmptyNodes (t : MultiHashTable) : Finset Nat :=
  (Finset.range t.ddwHashNodeNum).filter fun q => ¬ t.isHnodeEmpty q

section Evict

variable {t t' : MultiHashTable} {p o : Nat}

theorem eraseNode_evicted (hw : sizeofMhtNode ≤ t.ddwHashNodeSize) (hm : Moved t t') (o : Nat) :
    Evicted t (t'.eraseNode o) o := by
  obtain ⟨it, -, rfl⟩ := hm
  refine ⟨rfl, fun i hi => ?_, fun i hi => ?_, fun q hq => ?_⟩
  · have hin := Mem.write_inside t.ht (a := t.addr o + 0) (l := List.replicate sizeofMhtNode 0)
      (i := i) (by simpa using hi)
    rw [List.getElem_replicate] at hin
    exact hin
  · refine Mem.write_away t.ht (a := t.addr o + 0) (.inr ?_)
    rw [List.length_replicate]
    omega
  · exact writeNode_away (t := { t with ddwEraseIterator := it }) hq (by simpa using hw)

theorem SameBytes.ltPos {q : Nat} (h : SameBytes t t' q) (hw : sizeofMhtNode ≤ t.ddwHashNodeSize) :
    t'.nodeLtPos q = t.nodeLtPos q := by
  obtain ⟨hsize, hbytes⟩ := h
  have hw' : 16 ≤ t.ddwHashNodeSize := hw
  have haddr : t'.addr q = t.addr q := by rw [addr, hsize]; rfl
  rw [nodeLtPos, nodeLtPos, haddr]
  refine congrArg leNat (Mem.read_congr fun i hi => ?_)
  rw [Nat.add_assoc]
  exact hbytes (8 + i) (by omega)

/-- An eviction leaves one non-empty node less. -/
theorem nonEmptyNodes_evicted (hw : sizeofMhtNode ≤ t.ddwHashNodeSize) (hm : Moved t t')
    (ho : t.Candidate p o) : (t'.eraseNode o).nonEmptyNodes.card < t.nonEmptyNodes.card := by
  have hev := eraseNode_evicted hw hm o
  obtain ⟨it, -, rfl⟩ := hm
  refine Finset.card_lt_card ((Finset.ssubset_iff_of_subset ?_).mpr ⟨o, ?_, ?_⟩)
  · intro q hq
    obtain ⟨hlt, hne⟩ := Finset.mem_filter.mp hq
    have hqo : q ≠ o := by
      rintro rfl
      exact hne (decide_eq_true wipeNode_ltPos)
    refine Finset.mem_filter.mpr ⟨hlt, ?_⟩
    rw [isHnodeEmpty, ← (hev.others q hqo).ltPos hw]
    exact hne
  · exact Finset.mem_filter.mpr ⟨Finset.mem_range.mpr ho.1, by simpa [isHnodeEmpty] using ho.2.2⟩
  · intro hq
    exact (Finset.mem_filter.mp hq).2 (decide_eq_true wipeNode_ltPos)

/-- **The write loop ends** within one round more than there are non-empty nodes. -/
theorem storeLoop_ends (data : List UInt8) (evict : Bool) (p fuel : Nat) :
    ∀ {t : MultiHashTable} (oldest : Option Nat), sizeofMhtNode ≤ t.ddwHashNodeSize →
    t.ddwEraseIterator < t.ddwHashNodeNum → t.nonEmptyNodes.card < fuel →
    (storeLoop data evict p fuel oldest t).isSome := by
  induction fuel with
  | zero => intro t oldest _ _ hf; omega
  | succ fuel ih =>
    intro t oldest hw hI hf
    rw [storeLoop]
    rcases t.lt.setData (t.nodeLtPos p) data with ⟨e | pos, lt⟩
    · simp only
      by_cases hcode : e.code ≠ -100
      · rw [if_pos hcode]
        rfl
      rw [if_neg hcode]
      cases evict with
      | false => rfl
      | true =>
        simp only [not_true_eq_false, if_false]
        cases oldest with
        | some o => rfl
        | none =>
          -- the block store is not among the nodes
          obtain ⟨t1, hm, ⟨heq, -⟩ | ⟨o, heq, -, hmin⟩⟩ :=
            searchAndEraseOldestOne_eq (t := { t with lt := lt }) hI p
          · simp only [heq, Option.isSome_some]
          · have hcand := candidate_of_firstHundred (t := { t with lt := lt }) hI hmin.mem
            have hless := nonEmptyNodes_evicted (t := { t with lt := lt }) hw hm hcand
            have hfew := Nat.lt_of_lt_of_le hless (Nat.le_of_lt_succ hf)
            obtain ⟨it, hit, rfl⟩ := hm
            simp only [heq]
            exact ih none hw hit hfew
    · rfl

/-- **The oldest of the first hundred.**  `SearchAndEraseOldestOne` ends; it gives up the first of
    them with the smallest access time, if that is below `2 ^ 32 - 1`, and nothing otherwise; the
    iterator stays in the table.  And so the loop of `SetData` ends. -/
theorem searchAndEraseOldestOne_exact (hw : sizeofMhtNode ≤ t.ddwHashNodeSize)
    (hI : t.ddwEraseIterator < t.ddwHashNodeNum) (p : Nat) :
    (∃ r t', t.searchAndEraseOldestOne p = some (r, t') ∧ SameShape t t' ∧
      t'.ddwEraseIterator < t.ddwHashNodeNum ∧
      ((∃ q ∈ t.firstHundred p, t.nodeAccessTime q < 2 ^ 32 - 1) →
        eraseOldestCode r = 0 ∧
          ∃ o, FirstMin t.nodeAccessTime (t.firstHundred p) o ∧ Evicted t t' o) ∧
      ((∀ q ∈ t.firstHundred p, 2 ^ 32 - 1 ≤ t.nodeAccessTime q) →
        eraseOldestCode r = -7 ∧ t'.ht = t.ht ∧ t'.lt = t.lt)) ∧
    ∀ data evict oldest,
      (storeLoop data evict p (t.nonEmptyNodes.card + 2) oldest t).isSome := by
  refine ⟨?_, fun data evict oldest => storeLoop_ends data evict p _ oldest hw hI (by omega)⟩
  obtain ⟨t1, hm, ⟨heq, hall⟩ | ⟨o, heq, hyoung, hmin⟩⟩ := searchAndEraseOldestOne_eq hI p
  · obtain ⟨it, hit, rfl⟩ := hm
    refine ⟨_, _, heq, ⟨rfl, rfl, rfl, rfl, rfl, rfl⟩, hit, ?_, fun _ => ⟨rfl, rfl, rfl⟩⟩
    rintro ⟨q, hq, hlt⟩
    have := hall q hq
    omega
  · have hev := eraseNode_evicted hw hm o
    obtain ⟨it, hit, rfl⟩ := hm
    refine ⟨_, _, heq, ⟨rfl, rfl, rfl, rfl, rfl, rfl⟩, hit, fun _ => ⟨rfl, o, hmin, hev⟩,
      fun hall => ?_⟩
    have := hall o hmin.mem
    omega

end Evict

/-- Three nodes of 17 bytes with the access times `9`, `5`, `5`; the scan starts at node `1`. -/
def threeNodes : MultiHashTable where
  ddwHashNodeNum := 3
  ddwHashNodeSize := 17
  ddwRowNum := 1
  auRowsNodeNum := fun _ => 3
  auRowsStartNode := fun _ => 0
  ddwMaxUsedRow := 0
  ddwEraseIterator := 1
  cUseAccessSeq := false
  ht := fun a =>
    [0, 0, 0, 0, 9, 0, 0, 0, 1, 0, 0, 0, 0, 0, 1, 0, 65,
     0, 0, 0, 0, 5, 0, 0, 0, 2, 0, 0, 0, 0, 0, 1, 0, 66,
     0, 0, 0, 0, 5, 0, 0, 0, 3, 0, 0, 0, 0, 0, 1, 0, 67].getD a 0
  lt :=
    { ddwAllBlockCount := 4, ddwFreeBlockCount := 1, ddwBlockSize := 32, ddwLastEmpty := 1,
      ddwFirstFreePos := 0, ddwRecycleIndex := 0, dwRecyclePoolSize := 100,
      addwRecyclePool := fun _ => 0, blocks := fun _ => ⟨0, 1, List.replicate 24 0⟩ }
  hashfunc := defaultHashFunc

/-- Of the two oldest nodes the first in the order of the scan is given up. -/
theorem searchAndEraseOldestOne_threeNodes : threeNodes.firstHundred 3 = [1, 2, 0] ∧
    ∃ r t', threeNodes.searchAndEraseOldestOne 3 = some (r, t') ∧ eraseOldestCode r = 0 ∧
      ∃ o, FirstMin threeNodes.nodeAccessTime [1, 2, 0] o ∧ Evicted threeNodes t' o := by
  have hfirst : threeNodes.firstHundred 3 = [1, 2, 0] := by decide +kernel
  obtain ⟨⟨r, t', heq, -, -, hyoung, -⟩, -⟩ :=
    searchAndEraseOldestOne_exact (t := threeNodes) (by decide) (by decide) 3
  rw [hfirst] at hyoung
  exact ⟨hfirst, r, t', heq, hyoung ⟨1, by decide, by decide +kernel⟩⟩

/-! ## Under the invariant -/

/-- **`SearchAndEraseOldestOne`** ends; it erases a node other than `p`, or finds none that it
    may erase. -/
theorem searchAndEraseOldestOne_spec {t : MultiHashTable} (h : Inv t) (p : Nat) :
    (∃ t', t.searchAndEraseOldestOne p = some (.error .noMoreNode, t') ∧ Inv t' ∧ Forgets t t' ∧
      (∀ q, q < t.ddwHashNodeNum → KeepsNode t t' q) ∧
      ((∃ q, t'.Candidate p q ∧ t'.nodeAccessTime q ≥ 2 ^ 32 - 1) ∨ ∀ q, ¬ t'.Candidate p q)) ∨
    ∃ o t', t.searchAndEraseOldestOne p = some (.ok (), t') ∧ t.Candidate p o ∧ Inv t' ∧
      Forgets t t' ∧ t'.nodeLtPos o = 0 ∧ ∀ q, q < t.ddwHashNodeNum → q ≠ o → KeepsNode t t' q := by
  obtain ⟨t1, ⟨it, hit, rfl⟩, hres⟩ := searchAndEraseOldestOne_eq h.iter p
  -- moving the iterator is no change to any node
  have hinv' : Inv { t with ddwEraseIterator := it } :=
    h.update ⟨rfl, rfl, rfl, rfl, rfl, rfl⟩ rfl hit h.fits (fun q _ hne => ⟨hne, rfl, rfl⟩) h.lt
  have hf' : Forgets t { t with ddwEraseIterator := it } :=
    ⟨⟨rfl, rfl, rfl, rfl, rfl, rfl⟩, rfl, rfl, rfl, fun q _ _ => ⟨⟨rfl, rfl, rfl⟩, fun _ => rfl⟩⟩
  have hk' : ∀ q, KeepsNode t { t with ddwEraseIterator := it } q :=
    fun q => ⟨⟨rfl, rfl, rfl⟩, fun _ _ => rfl⟩
  rcases hres with ⟨heq, hall⟩ | ⟨o, heq, -, hmin⟩
  · refine .inl ⟨_, heq, hinv', hf', fun q _ => hk' q, ?_⟩
    by_cases hex : ∃ q, t.Candidate p q
    · obtain ⟨q, hq⟩ := hex
      have hmem := (mem_scanned h.iter).mpr hq
      cases hfirst : t.firstHundred p with
      | nil =>
        rw [firstHundred, List.take_eq_nil_iff] at hfirst
        rcases hfirst with hfirst | hfirst
        · cases hfirst
        · rw [hfirst] at hmem
          simp at hmem
      | cons x l =>
        have hx : x ∈ t.firstHundred p := hfirst ▸ List.mem_cons_self
        exact .inl ⟨x, candidate_of_firstHundred h.iter hx, hall x hx⟩
    · exact .inr fun q hq => hex ⟨q, hq⟩
  · have hc := candidate_of_firstHundred h.iter hmin.mem
    obtain ⟨hinv, hf, h0, -, hkeep⟩ := eraseNode_spec hinv' (p := o) hc.1
    exact .inr ⟨o, _, heq, hc, hinv, hf'.trans hf, h0,
      fun q hq hqo => (hk' q).trans (hkeep q hq hqo)⟩

end MysqlProxy.MultiHashTable
