/-
  What `MultiHashTable::SetData` does, stage by stage.

      place        search, erase conditions 1 and 2, the choice of the node      `place_spec`
      storeLoop    the block store is asked, and asked again after evictions     `storeLoop_cases`
      commit       the node is written                                           `commit_spec`

  Each stage before the last only FORGETS entries, and never the one of the key that is being
  written.  The outcome of the write loop is one of

  * a `Stored` value (which reads back unless the block store overran),
  * a failure, with the old chain of the key in place,
  * a SKIPPED store: the first attempt found no room, the oldest node of the path was erased, and
    `ret`, now `0`, ended the loop.  The position of the node is the old one.
-/
import MysqlProxy.Ht.MhtEvict
import MysqlProxy.Ht.LinkTableCalls
import Mathlib.Logic.Relation

namespace MysqlProxy.MultiHashTable

/-! ## The choice of the node -/

/-- What `SetData` knows about its node when the write loop starts. -/
structure Placed (t t1 : MultiHashTable) (k : List UInt8) (w : Place) : Prop where
  node_lt : w.pDataNode < t.ddwHashNodeNum
  old : w.isNew = false → t.Has k w.pDataNode
  new : w.isNew = true → (∀ p, ¬ t.Has k p) ∧ t1.nodeLtPos w.pDataNode = 0 ∧
    w.emptyrow < t.ddwRowNum ∧
    ∃ i, i ≤ max t.ddwMaxUsedRow w.emptyrow ∧ w.pDataNode = t.slot (t.hashfunc k).toNat i
  /-- An oldest node is left over only if nothing was erased. -/
  oldest : ∀ o, w.pOldestNode = some o → o < t.ddwHashNodeNum ∧ o ≠ w.pDataNode ∧
    t.nodeLtPos o ≠ 0 ∧ t1 = t

theorem eraseOldestOnPath_cases (t : MultiHashTable) (r : Found) (evict : Bool) :
    (t.eraseOldestOnPath r evict = (r, t) ∧
      (r.oldestNode = none ∨ evict = false ∨ t.lt.getUsage ≤ 95)) ∨
    ∃ o, r.oldestNode = some o ∧ evict = true ∧ t.lt.getUsage > 95 ∧
      t.eraseOldestOnPath r evict =
        ({ r with emptyNode := some (r.emptyNode.getD o)
                  emptyRow := if r.emptyNode = none then 0 else r.emptyRow
                  oldestNode := none }, t.eraseNode o) := by
  unfold eraseOldestOnPath
  cases ho : r.oldestNode with
  | none => exact .inl ⟨rfl, .inl rfl⟩
  | some o =>
    by_cases hc : evict = true ∧ t.lt.getUsage > 95
    · refine .inr ⟨o, rfl, hc.1, hc.2, ?_⟩
      simp only [if_pos hc]
      cases he : r.emptyNode with
      | none => simp
      | some e => simp
    · refine .inl ⟨by simp only [if_neg hc], .inr ?_⟩
      cases evict with
      | false => exact .inl rfl
      | true => exact .inr (Int.not_lt.mp fun hu => hc ⟨rfl, hu⟩)

section Place

variable {t : MultiHashTable} {k : List UInt8}

/-- An empty node that `Search` offers is empty, also the one past the highest used row. -/
theorem emptyNode_spec (h : Inv t) {r : Found}
    (hspec : SearchSpec t k (t.hashfunc k).toNat t.ddwMaxUsedRow r) {e : Nat}
    (he : r.emptyNode = some e) :
    e < t.ddwHashNodeNum ∧ t.nodeLtPos e = 0 ∧ r.emptyRow < t.ddwRowNum ∧
      e = t.slot (t.hashfunc k).toNat r.emptyRow := by
  obtain ⟨rfl, hcase⟩ := hspec.empty e he
  have hmax := h.maxRow
  have hrow : r.emptyRow < t.ddwRowNum := by omega
  refine ⟨slot_lt h.rows hrow _, ?_, hrow, rfl⟩
  rcases hcase with ⟨-, h0⟩ | ⟨hr, -⟩
  · exact h0
  · by_contra hne
    obtain ⟨-, i, hi, hslot⟩ := h.placed _ (slot_lt h.rows hrow _) hne
    have := slot_inj h.rows hrow (by omega) hslot
    omega

theorem oldestNode_spec (h : Inv t) {r : Found}
    (hspec : SearchSpec t k (t.hashfunc k).toNat t.ddwMaxUsedRow r) (hk : t.ValidKey k) {o : Nat}
    (ho : r.oldestNode = some o) :
    o < t.ddwHashNodeNum ∧ t.nodeLtPos o ≠ 0 ∧ ¬ t.Has k o ∧
      ∃ i, i ≤ t.ddwMaxUsedRow ∧ o = t.slot (t.hashfunc k).toNat i := by
  obtain ⟨⟨i, hi, rfl⟩, hne, hno⟩ := hspec.oldest o ho
  have hlt := slot_lt h.rows (Nat.lt_of_le_of_lt hi h.maxRow) (t.hashfunc k).toNat
  refine ⟨hlt, hne, fun hhas => hno ⟨hne, ?_, (hnodeCmp_iff hk.2.1).mpr hhas.2.2⟩, i, hi, rfl⟩
  rw [(h.placed _ hlt hne).1, hhas.2.2]

/-- **The choice of the node**: it forgets at most one entry, not the one of the key. -/
theorem place_spec (h : Inv t) (hk : t.ValidKey k) (evict : Bool) :
    Inv (t.place k evict).2 ∧ Forgets t (t.place k evict).2 ∧
      (∀ p, t.Has k p → KeepsNode t (t.place k evict).2 p) ∧
      (evict = false → (t.place k evict).2 = t) ∧
      (∀ e, (t.place k evict).1 = .error e → e = .hashOutOfSpace ∧ evict = false ∧
        ∀ p, ¬ t.Has k p) ∧
      ∀ w, (t.place k evict).1 = .ok w → Placed t (t.place k evict).2 k w := by
  obtain ⟨hsame, hspec⟩ := search_spec h.maxRow k (t.hashfunc k).toNat
  have hnode := fun p => search_node (p := p) h hk
  have hnone := search_none h hk
  unfold place
  rcases hsearch : t.search k (t.hashfunc k).toNat with ⟨r, t0⟩
  rw [hsearch] at hsame hspec hnode hnone
  obtain rfl : t0 = t := hsame
  simp only
  -- erasing a node of the path leaves the key's own node alone
  have herase : ∀ o, r.oldestNode = some o → Inv (t0.eraseNode o) ∧ Forgets t0 (t0.eraseNode o) ∧
      (∀ p, t0.Has k p → KeepsNode t0 (t0.eraseNode o) p) ∧ (t0.eraseNode o).nodeLtPos o = 0 ∧
      ∀ e, t0.nodeLtPos e = 0 → e < t0.ddwHashNodeNum → (t0.eraseNode o).nodeLtPos e = 0 := by
    intro o ho
    obtain ⟨hlt, -, hno, -⟩ := oldestNode_spec h hspec hk ho
    obtain ⟨hinv, hf, h0, -, hkeep⟩ := eraseNode_spec h hlt
    refine ⟨hinv, hf, fun p hp => hkeep p hp.1 fun hpo => hno (hpo ▸ hp), h0, fun e he hlt' => ?_⟩
    by_cases heo : e = o
    · subst heo; exact h0
    · rw [(hkeep e hlt' heo).1.pos, he]
  rcases eraseOldestOnPath_cases t0 r evict with ⟨heq, -⟩ | ⟨o, ho, hev, -, heq⟩
  · rw [heq]
    simp only
    cases hrn : r.node with
    | some p =>
      have hp : t0.Has k p := (hnode p).mp hrn
      refine ⟨h, Forgets.refl t0, fun q _ => KeepsNode.refl t0 q, fun _ => rfl,
        fun e he => by simp at he, fun w hw => ?_⟩
      obtain rfl : (⟨p, false, r.emptyRow, r.oldestNode⟩ : Place) = w := by simpa using hw
      refine ⟨hp.1, fun _ => hp, fun hn => by simp at hn, fun o ho => ?_⟩
      obtain ⟨hlt, hne, hno, -⟩ := oldestNode_spec h hspec hk ho
      exact ⟨hlt, fun hop => hno (hop ▸ hp), hne, rfl⟩
    | none =>
      have hno := hnone.mp hrn
      cases hre : r.emptyNode with
      | some e =>
        obtain ⟨h1, h2, h3, h4⟩ := emptyNode_spec h hspec hre
        refine ⟨h, Forgets.refl t0, fun q _ => KeepsNode.refl t0 q, fun _ => rfl,
          fun e he => by simp at he, fun w hw => ?_⟩
        obtain rfl : (⟨e, true, r.emptyRow, r.oldestNode⟩ : Place) = w := by simpa using hw
        refine ⟨h1, fun hn => by simp at hn, fun _ => ⟨hno, h2, h3, r.emptyRow, ?_, h4⟩,
          fun o ho => ?_⟩
        · exact Nat.le_max_right _ _
        · obtain ⟨hlt, hne, -, -⟩ := oldestNode_spec h hspec hk ho
          exact ⟨hlt, fun hoe => hne (hoe ▸ h2), hne, rfl⟩
      | none =>
        cases evict with
        | false =>
          simp only [Bool.false_eq_true, not_false_eq_true, if_true]
          exact ⟨h, Forgets.refl t0, fun q _ => KeepsNode.refl t0 q, fun _ => trivial,
            fun e he => ⟨by simpa using he.symm, trivial, hno⟩, fun w hw => by simp at hw⟩
        | true =>
          simp only [not_true_eq_false, if_false]
          cases hro : r.oldestNode with
          | none => exact absurd hro (hspec.someOldest hrn hre)
          | some o =>
            obtain ⟨hinv, hf, hkeep, h0, -⟩ := herase o hro
            obtain ⟨hlt, -, -, i, hi, hslot⟩ := oldestNode_spec h hspec hk hro
            refine ⟨hinv, hf, hkeep, fun hev => by simp at hev, fun e he => by simp at he,
              fun w hw => ?_⟩
            obtain rfl : (⟨o, true, 0, none⟩ : Place) = w := by simpa using hw
            exact ⟨hlt, fun hn => by simp at hn,
              fun _ => ⟨hno, h0, h.rows.pos, i, Nat.le_trans hi (Nat.le_max_left _ _), hslot⟩,
              fun o ho => by simp at ho⟩
  · rw [heq]
    simp only
    obtain ⟨hinv, hf, hkeep, h0, hstill⟩ := herase o ho
    obtain ⟨holt, -, -, i, hi, hoslot⟩ := oldestNode_spec h hspec hk ho
    cases hrn : r.node with
    | some p =>
      have hp : t0.Has k p := (hnode p).mp hrn
      refine ⟨hinv, hf, hkeep, fun hev' => by simp [hev] at hev', fun e he => by simp at he,
        fun w hw => ?_⟩
      obtain rfl : (⟨p, false, _, none⟩ : Place) = w := by simpa using hw
      exact ⟨hp.1, fun _ => hp, fun hn => by simp at hn, fun o ho => by simp at ho⟩
    | none =>
      have hno := hnone.mp hrn
      refine ⟨hinv, hf, hkeep, fun hev' => by simp [hev] at hev', fun e he => by simp at he,
        fun w hw => ?_⟩
      obtain rfl : (⟨r.emptyNode.getD o, true, if r.emptyNode = none then 0 else r.emptyRow, none⟩ :
        Place) = w := by simpa using hw
      cases hre : r.emptyNode with
      | none =>
        exact ⟨holt, fun hn => by simp at hn,
          fun _ => ⟨hno, h0, h.rows.pos, i, Nat.le_trans hi (Nat.le_max_left _ _), hoslot⟩,
          fun o ho => by simp at ho⟩
      | some e =>
        obtain ⟨h1, h2, h3, h4⟩ := emptyNode_spec h hspec hre
        exact ⟨h1, fun hn => by simp at hn,
          fun _ => ⟨hno, hstill e h2 h1, h3, r.emptyRow, Nat.le_max_right _ _, h4⟩,
          fun o ho => by simp at ho⟩

end Place

/-! ## The write loop -/

theorem code_eq_iff (e : LtError) : e.code = -100 ↔ e = .notEnoughSpace := by
  cases e <;> simp [LtError.code]

section Store

variable {t t' : MultiHashTable} {p : Nat} {data : List UInt8}

/-- A block store that failed has changed nothing the index can see. -/
theorem Inv.keepsUsed (h : Inv t) {lt : LinkTable} (hk : LinkTable.KeepsUsed t.lt lt) :
    Inv { t with lt := lt } ∧ Forgets t { t with lt := lt } ∧
      ∀ q, q < t.ddwHashNodeNum → KeepsNode t { t with lt := lt } q := by
  obtain ⟨hv, hkeep⟩ := hk.valid h.lt
  have hread : ∀ q, q < t.ddwHashNodeNum → ∀ n,
      lt.getData (t.nodeLtPos q) n = t.lt.getData (t.nodeLtPos q) n := fun q hq n =>
    h.lt.getData_keep (mem_slots.mpr ⟨q, hq, rfl⟩) hk.all hk.size
      (hkeep.mono (List.subset_append_left _ _))
  exact ⟨h.update ⟨rfl, rfl, rfl, rfl, rfl, rfl⟩ rfl h.iter h.fits (fun q _ hne => ⟨hne, rfl, rfl⟩) hv,
    ⟨⟨rfl, rfl, rfl, rfl, rfl, rfl⟩, rfl, hk.size, hk.all, fun q hq _ => ⟨⟨rfl, rfl, rfl⟩, hread q hq⟩⟩,
    fun q hq => ⟨⟨rfl, rfl, rfl⟩, fun _ => hread q hq⟩⟩

/-- One call of the block store for node `p`. -/
theorem attempt_cases (h : Inv t) (hp : p < t.ddwHashNodeNum) (hd : data ≠ []) :
    (∃ e lt, t.lt.setData (t.nodeLtPos p) data = (.error e, lt) ∧
      ¬ t.lt.Overruns (t.lt.blockCount data.length) ∧ Inv { t with lt := lt } ∧
      Forgets t { t with lt := lt } ∧
      ∀ q, q < t.ddwHashNodeNum → KeepsNode t { t with lt := lt } q) ∨
    ∃ pos lt, t.lt.setData (t.nodeLtPos p) data = (.ok pos, lt) ∧
      LinkTable.Stored t.lt (slots t.ddwHashNodeNum (Function.update t.nodeLtPos p 0)) data pos lt := by
  rcases LinkTable.setData_valid (h.valid_cons hp) hd with ⟨e, lt, heq, hk, hno⟩ | ⟨pos, lt, heq, hst⟩
  · exact .inl ⟨e, lt, heq, hno, h.keepsUsed hk⟩
  · exact .inr ⟨pos, lt, heq, hst⟩

/-- A block store that fails, for whatever data, has kept every node. -/
theorem attempt_error (h : Inv t) (hp : p < t.ddwHashNodeNum) {e : LtError} {lt : LinkTable}
    (heq : t.lt.setData (t.nodeLtPos p) data = (.error e, lt)) :
    Inv { t with lt := lt } ∧ Forgets t { t with lt := lt } ∧
      ∀ q, q < t.ddwHashNodeNum → KeepsNode t { t with lt := lt } q := by
  by_cases hd : data = []
  · obtain rfl : t.lt = lt := by
      rw [hd, LinkTable.setData_eq, LinkTable.setData_nil h.lt.toGeometry.fits.bdl_pos] at heq
      by_cases hneg : int32 t.lt.ddwFreeBlockCount < 0
      · rw [if_pos hneg] at heq
        exact (Prod.mk.inj heq).2
      · rw [if_neg hneg] at heq
        simp at heq
    exact ⟨h, Forgets.refl t, fun q _ => KeepsNode.refl t q⟩
  · rcases attempt_cases h hp hd with ⟨e', lt', heq', -, hspec⟩ | ⟨pos, lt', heq', -⟩
    · obtain ⟨-, rfl⟩ : e' = e ∧ lt' = lt := by rw [heq'] at heq; simpa using heq
      exact hspec
    · rw [heq'] at heq; simp at heq

/-- Without eviction the write loop makes one attempt. -/
theorem storeLoop_false (t : MultiHashTable) (data : List UInt8) (p fuel : Nat)
    (oldest : Option Nat) : ∃ r lt, storeLoop data false p (fuel + 1) oldest t =
      some (r, { t with lt := lt }) ∧
      ((∃ pos, r = .ok pos) ↔ retCode (t.lt.setData (t.nodeLtPos p) data).1 = 0) := by
  rw [storeLoop]
  rcases t.lt.setData (t.nodeLtPos p) data with ⟨e | pos, lt⟩
  · have hcode : e.code ≠ 0 := Int.ne_of_lt e.code_neg
    simp only
    by_cases h100 : e.code ≠ -100
    · rw [if_pos h100]
      exact ⟨_, lt, rfl, by simpa [retCode] using hcode⟩
    · rw [if_neg h100, if_pos (by decide)]
      exact ⟨_, lt, rfl, by simpa [retCode] using hcode⟩
  · exact ⟨_, lt, rfl, by simp [retCode]⟩

/-- A round of the write loop that goes on: no room, one node evicted. -/
def Round (data : List UInt8) (p : Nat) (t t' : MultiHashTable) : Prop :=
  ∃ lt, t.lt.setData (t.nodeLtPos p) data = (.error .notEnoughSpace, lt) ∧
    { t with lt := lt }.searchAndEraseOldestOne p = some (.ok (), t')

/-- The number of nodes that may still be evicted. -/
def occupied (t : MultiHashTable) (p : Nat) : Nat :=
  ((Finset.range t.ddwHashNodeNum).filter fun q => q ≠ p ∧ t.nodeLtPos q ≠ 0).card

theorem occupied_le (t : MultiHashTable) (p : Nat) : t.occupied p ≤ t.ddwHashNodeNum := by
  calc t.occupied p ≤ (Finset.range t.ddwHashNodeNum).card := Finset.card_filter_le _ _
    _ = t.ddwHashNodeNum := Finset.card_range _

/-- An eviction leaves one node less. -/
theorem occupied_lt (hf : Forgets t t') {o : Nat} (ho : t.Candidate p o)
    (h0 : t'.nodeLtPos o = 0) : t'.occupied p < t.occupied p := by
  refine Finset.card_lt_card ((Finset.ssubset_iff_of_subset ?_).mpr ⟨o, ?_, ?_⟩)
  · intro q hq
    rw [hf.num] at hq
    obtain ⟨hlt, hqp, hne⟩ := Finset.mem_filter.mp hq
    refine Finset.mem_filter.mpr ⟨hlt, hqp, ?_⟩
    rw [← (hf.same q (Finset.mem_range.mp hlt) hne).1.pos]
    exact hne
  · exact Finset.mem_filter.mpr ⟨Finset.mem_range.mpr ho.1, ho.2.1, ho.2.2⟩
  · intro hq
    exact (Finset.mem_filter.mp hq).2.2 h0

theorem round_spec (h : Inv t) (hp : p < t.ddwHashNodeNum) (hr : Round data p t t') :
    Inv t' ∧ Forgets t t' ∧ KeepsNode t t' p ∧ t'.occupied p < t.occupied p := by
  obtain ⟨lt, heq, hev⟩ := hr
  obtain ⟨hinv, hf, hk⟩ := attempt_error h hp heq
  rcases searchAndEraseOldestOne_spec hinv p with ⟨t1, heq1, -⟩ | ⟨o, t1, heq1, ho, hinv1, hf1, h0, hk1⟩
  · rw [heq1] at hev; simp at hev
  · obtain rfl : t1 = t' := by rw [heq1] at hev; simpa using hev
    refine ⟨hinv1, hf.trans hf1, (hk p hp).trans (hk1 p hp (Ne.symm ho.2.1)), ?_⟩
    exact occupied_lt (hf.trans hf1) (o := o) ho h0

/-- Any number of rounds. -/
theorem rounds_spec (h : Inv t) (hp : p < t.ddwHashNodeNum)
    (hr : Relation.ReflTransGen (Round data p) t t') :
    Inv t' ∧ Forgets t t' ∧ KeepsNode t t' p := by
  induction hr with
  | refl => exact ⟨h, Forgets.refl t, KeepsNode.refl t p⟩
  | tail _ hstep ih =>
    obtain ⟨hinv, hf, hk⟩ := ih
    obtain ⟨hinv', hf', hk', -⟩ := round_spec hinv (by rw [hf.num]; exact hp) hstep
    exact ⟨hinv', hf.trans hf', hk.trans hk'⟩

/-- The last round of the write loop, on table `t` with the oldest node `oldest` left over. -/
inductive LastRound (data : List UInt8) (evict : Bool) (p : Nat) (t : MultiHashTable)
    (oldest : Option Nat) : Except MhtError Nat × MultiHashTable → Prop where
  | stored {pos : Nat} {lt : LinkTable} :
      t.lt.setData (t.nodeLtPos p) data = (.ok pos, lt) →
      LastRound data evict p t oldest (.ok pos, { t with lt := lt })
  | failed {e : LtError} {lt : LinkTable} :
      t.lt.setData (t.nodeLtPos p) data = (.error e, lt) → e ≠ .notEnoughSpace →
      LastRound data evict p t oldest (.error (.linkTableSet e), { t with lt := lt })
  | refused {lt : LinkTable} :
      t.lt.setData (t.nodeLtPos p) data = (.error .notEnoughSpace, lt) → evict = false →
      LastRound data evict p t oldest (.error .linkOutOfSpace, { t with lt := lt })
  | skipped {o : Nat} {lt : LinkTable} :
      t.lt.setData (t.nodeLtPos p) data = (.error .notEnoughSpace, lt) → evict = true →
      oldest = some o →
      LastRound data evict p t oldest (.ok (t.nodeLtPos p), { t with lt := lt }.eraseNode o)
  | exhausted {lt : LinkTable} {t' : MultiHashTable} :
      t.lt.setData (t.nodeLtPos p) data = (.error .notEnoughSpace, lt) → evict = true →
      oldest = none →
      { t with lt := lt }.searchAndEraseOldestOne p = some (.error .noMoreNode, t') →
      LastRound data evict p t oldest (.error .noMoreNode, t')

/-- **The write loop ends**: some rounds that evict, then a last one.  Rounds that evict happen
    only with `bRemoveOldIfNoSpace`, and not while an oldest node of the path is left. -/
theorem storeLoop_cases (data : List UInt8) (evict : Bool) (fuel : Nat) :
    ∀ {t : MultiHashTable} (oldest : Option Nat), Inv t → p < t.ddwHashNodeNum →
    t.occupied p < fuel →
    ∃ t1 r, storeLoop data evict p fuel oldest t = some r ∧
      Relation.ReflTransGen (Round data p) t t1 ∧ LastRound data evict p t1 oldest r ∧
      (evict = false ∨ oldest ≠ none → t1 = t) := by
  induction fuel with
  | zero => intro t oldest _ _ hf; omega
  | succ fuel ih =>
    intro t oldest h hp hfuel
    rw [storeLoop]
    rcases heq : t.lt.setData (t.nodeLtPos p) data with ⟨e | pos, lt⟩
    · obtain ⟨hinv, hf, hk⟩ := attempt_error h hp heq
      simp only
      by_cases hcode : e.code = -100
      · obtain rfl := (code_eq_iff e).mp hcode
        rw [if_neg (by simpa using hcode)]
        cases evict with
        | false => exact ⟨t, _, rfl, .refl, .refused heq rfl, fun _ => rfl⟩
        | true =>
          simp only [not_true_eq_false, if_false]
          cases oldest with
          | some o => exact ⟨t, _, rfl, .refl, .skipped heq rfl rfl, fun _ => rfl⟩
          | none =>
            rcases searchAndEraseOldestOne_spec hinv p with ⟨t1, heq1, -⟩ | ⟨o, t1, heq1, -⟩
            · simp only [heq1]
              exact ⟨t, _, rfl, .refl, .exhausted heq rfl rfl heq1, fun _ => rfl⟩
            · simp only [heq1]
              have hround : Round data p t t1 := ⟨lt, heq, heq1⟩
              obtain ⟨hinv1, hf1, -, hocc⟩ := round_spec h hp hround
              obtain ⟨t2, r, h1, h2, h3, -⟩ := ih none hinv1
                (by rw [hf1.num]; exact hp) (by omega)
              exact ⟨t2, r, h1, .head hround h2, h3, by simp⟩
      · rw [if_pos hcode]
        exact ⟨t, _, rfl, .refl, .failed heq (fun he => hcode ((code_eq_iff e).mpr he)),
          fun _ => rfl⟩
    · exact ⟨t, _, rfl, .refl, .stored heq, fun _ => rfl⟩

end Store

/-! ## Writing the node -/

/-- A handle of a valid block store fits 48 bits. -/
theorem valid_pos_lt {lt : LinkTable} {pos : Nat} {handles : List Nat}
    (hv : lt.Valid (pos :: handles)) : pos < 2 ^ 48 := by
  have hall := hv.all_le
  obtain ⟨l, hl, -, hok⟩ := Owns.chain hv.isolated List.mem_cons_self
  cases l with
  | nil => rw [chain_nil.mp hl]; decide
  | cons x l =>
    have := (hok x List.mem_cons_self).2.1
    rw [hl.1]
    omega

/-- All writes of `commit` stay inside the node. -/
theorem commit_away {t : MultiHashTable} {q : Nat} {k : List UInt8} {w : Place} (now pos : Nat)
    (hw : t.WideNodes) (hk : k.length ≤ t.getMaxKeyLen) (hq : q ≠ w.pDataNode)
    (hfit : t.nodeKeyLen q ≤ t.getMaxKeyLen) : SameNode t (t.commit now k w pos) q := by
  have hw' : 16 < t.ddwHashNodeSize := hw
  have hk' : 16 + k.length ≤ t.ddwHashNodeSize := by
    unfold getMaxKeyLen sizeofMhtNode at hk
    omega
  have hin : ∀ {s : MultiHashTable} {off : Nat} {l : List UInt8}, SameBytes t s q →
      off + l.length ≤ t.ddwHashNodeSize → SameBytes t (s.writeNode w.pDataNode off l) q :=
    fun hs hl => hs.trans (writeNode_away hq (by rw [hs.1]; exact hl))
  have h1 : SameBytes t (t.setLtPos w.pDataNode pos) q :=
    hin ⟨rfl, fun _ _ => rfl⟩ (by rw [length_leBytes]; omega)
  refine SameBytes.sameNode ?_ hw hfit
  unfold commit
  split
  · dsimp only
    generalize t.setLtPos w.pDataNode pos = t1 at h1 ⊢
    have h2 : SameBytes t (t1.setHashKey w.pDataNode (t.hashfunc k).toNat) q :=
      hin h1 (by rw [length_leBytes]; omega)
    generalize t1.setHashKey w.pDataNode (t.hashfunc k).toNat = t2 at h2 ⊢
    have h3 : SameBytes t (t2.setAccessTime w.pDataNode (if t.cUseAccessSeq then 0 else now)) q :=
      hin h2 (by rw [length_leBytes]; omega)
    generalize t2.setAccessTime w.pDataNode (if t.cUseAccessSeq then 0 else now) = t3 at h3 ⊢
    have h4 : SameBytes t (t3.setKeyLen w.pDataNode k.length) q :=
      hin h3 (by rw [length_leBytes]; omega)
    generalize t3.setKeyLen w.pDataNode k.length = t4 at h4 ⊢
    have h5 : SameBytes t (t4.setKey w.pDataNode k) q := hin h4 hk'
    exact ⟨h5.1, h5.2⟩
  · exact h1

/-- The header fields that `commit` keeps. -/
theorem commit_head (t : MultiHashTable) (now pos : Nat) (k : List UInt8) (w : Place) :
    SameShape t (t.commit now k w pos) ∧ (t.commit now k w pos).lt = t.lt ∧
      (t.commit now k w pos).ddwEraseIterator = t.ddwEraseIterator := by
  have hwr : ∀ {s : MultiHashTable} (off : Nat) (l : List UInt8),
      (SameShape t s ∧ s.lt = t.lt ∧ s.ddwEraseIterator = t.ddwEraseIterator) →
      SameShape t (s.writeNode w.pDataNode off l) ∧ (s.writeNode w.pDataNode off l).lt = t.lt ∧
        (s.writeNode w.pDataNode off l).ddwEraseIterator = t.ddwEraseIterator :=
    fun _ _ hs => ⟨⟨hs.1.num, hs.1.size, hs.1.rowNum, hs.1.rows, hs.1.starts, hs.1.hash⟩, hs.2⟩
  have h1 : SameShape t (t.setLtPos w.pDataNode pos) ∧ (t.setLtPos w.pDataNode pos).lt = t.lt ∧
      (t.setLtPos w.pDataNode pos).ddwEraseIterator = t.ddwEraseIterator :=
    hwr 8 (leBytes 6 pos) ⟨SameShape.refl t, rfl, rfl⟩
  unfold commit
  split
  · have h5 := hwr 16 k (hwr 14 (leBytes 1 k.length)
      (hwr 4 (leBytes 4 (if t.cUseAccessSeq then 0 else now))
        (hwr 0 (leBytes 4 (t.hashfunc k).toNat) h1)))
    exact ⟨⟨h5.1.num, h5.1.size, h5.1.rowNum, h5.1.rows, h5.1.starts, h5.1.hash⟩, h5.2⟩
  · exact h1

/-- The node itself, old or new, after it is written. -/
theorem commit_self {t : MultiHashTable} {lt : LinkTable} {pos : Nat} {k : List UInt8}
    {w : Place} (now : Nat) (h : Inv t) (hk : t.ValidKey k) (hpos : pos < 2 ^ 48)
    (hold : w.isNew = false → t.Has k w.pDataNode)
    (hnew : w.isNew = true → (∀ q, ¬ t.Has k q) ∧ w.emptyrow < t.ddwRowNum ∧
      ∃ i, i ≤ max t.ddwMaxUsedRow w.emptyrow ∧ w.pDataNode = t.slot (t.hashfunc k).toNat i) :
    ({ t with lt := lt }.commit now k w pos).nodeLtPos w.pDataNode = pos ∧
      ({ t with lt := lt }.commit now k w pos).nodeHashKey w.pDataNode = (t.hashfunc k).toNat ∧
      ({ t with lt := lt }.commit now k w pos).keyOf w.pDataNode = k ∧
      t.ddwMaxUsedRow ≤ ({ t with lt := lt }.commit now k w pos).ddwMaxUsedRow ∧
      ({ t with lt := lt }.commit now k w pos).ddwMaxUsedRow < t.ddwRowNum ∧
      ∃ i, i ≤ ({ t with lt := lt }.commit now k w pos).ddwMaxUsedRow ∧
        w.pDataNode = t.slot (t.hashfunc k).toNat i := by
  have hmax := h.maxRow
  cases hn : w.isNew with
  | true =>
    obtain ⟨-, hrow, i, hi, hslot⟩ := hnew hn
    obtain ⟨h1, h2, h3, h4⟩ := commit_new (t := { t with lt := lt }) now hn hpos hk.2.1
    rw [h4]
    exact ⟨h1, h2, h3, Nat.le_max_left _ _, Nat.max_lt.mpr ⟨hmax, hrow⟩, i, hi, hslot⟩
  | false =>
    obtain ⟨hp', hne, hkey⟩ := hold hn
    obtain ⟨hh, i, hi, hslot⟩ := h.placed _ hp' hne
    rw [hkey] at hh hslot
    have hc : { t with lt := lt }.commit now k w pos =
        { t with lt := lt }.setLtPos w.pDataNode pos := by
      rw [commit, hn]
      exact if_neg Bool.false_ne_true
    obtain ⟨h1, h2, h3⟩ := setLtPos_self (t := { t with lt := lt }) (p := w.pDataNode) hpos
    rw [hc]
    exact ⟨h1, h2.trans hh, h3.trans hkey, Nat.le_refl _, hmax, i, hi, hslot⟩

/-- A node gets the position `pos` instead of 0: both lists are the old positions without the node's
    own. -/
theorem slots_exchange_perm {n : Nat} (f : Nat → Nat) (pos : Nat) {p : Nat} (hp : p < n) :
    (pos :: slots n (Function.update f p 0)).Perm (0 :: slots n (Function.update f p pos)) := by
  have hperm1 := slots_update_perm f 0 hp
  have hperm2 := slots_update_perm f pos hp
  refine (List.perm_cons (f p)).mp ?_
  refine (List.Perm.swap _ _ _).trans ((hperm1.cons pos).trans ?_)
  exact (List.Perm.swap _ _ _).trans ((hperm2.symm.cons 0).trans (List.Perm.swap _ _ _))

/-- Keys stay unique when a node gets a key that no other node has. -/
theorem unique_of_same {t t' : MultiHashTable} {p : Nat} {k : List UInt8} (h : Inv t)
    (hshape : SameShape t t') (hkey : t'.keyOf p = k)
    (hsame : ∀ q, q < t.ddwHashNodeNum → q ≠ p → SameNode t t' q)
    (hother : ∀ q, q ≠ p → ¬ t.Has k q) : ∀ q r, q < t'.ddwHashNodeNum → r < t'.ddwHashNodeNum →
      t'.nodeLtPos q ≠ 0 → t'.nodeLtPos r ≠ 0 → t'.keyOf q = t'.keyOf r → q = r := by
  intro q r hq hr hne hne' heq
  rw [hshape.num] at hq hr
  by_cases hqp : q = p
  · by_cases hrp : r = p
    · rw [hqp, hrp]
    · have hs := hsame r hr hrp
      rw [hqp, hkey, hs.key] at heq
      exact absurd ⟨hr, hs.pos ▸ hne', heq.symm⟩ (hother r hrp)
  · have hs := hsame q hq hqp
    by_cases hrp : r = p
    · rw [hrp, hkey, hs.key] at heq
      exact absurd ⟨hq, hs.pos ▸ hne, heq⟩ (hother q hqp)
    · have hs' := hsame r hr hrp
      rw [hs.key, hs'.key] at heq
      exact h.unique q r hq hr (hs.pos ▸ hne) (hs'.pos ▸ hne') heq

/-- **Writing the node**, over a block store in which `pos` takes the place of the node's old
    position. -/
theorem commit_spec {t : MultiHashTable} {lt : LinkTable} {pos : Nat} {k : List UInt8}
    {w : Place} (now : Nat) (h : Inv t) (hp : w.pDataNode < t.ddwHashNodeNum) (hk : t.ValidKey k)
    (hv : lt.Valid (pos :: slots t.ddwHashNodeNum (Function.update t.nodeLtPos w.pDataNode 0)))
    (hold : w.isNew = false → t.Has k w.pDataNode)
    (hnew : w.isNew = true → (∀ q, ¬ t.Has k q) ∧ w.emptyrow < t.ddwRowNum ∧
      ∃ i, i ≤ max t.ddwMaxUsedRow w.emptyrow ∧ w.pDataNode = t.slot (t.hashfunc k).toNat i) :
    Inv ({ t with lt := lt }.commit now k w pos) ∧
      SameShape t ({ t with lt := lt }.commit now k w pos) ∧
      ({ t with lt := lt }.commit now k w pos).lt = lt ∧
      ({ t with lt := lt }.commit now k w pos).nodeLtPos w.pDataNode = pos ∧
      ({ t with lt := lt }.commit now k w pos).keyOf w.pDataNode = k ∧
      ∀ q, q < t.ddwHashNodeNum → q ≠ w.pDataNode →
        SameNode t ({ t with lt := lt }.commit now k w pos) q := by
  have haway : ∀ q, q < t.ddwHashNodeNum → q ≠ w.pDataNode →
      SameNode t ({ t with lt := lt }.commit now k w pos) q := by
    intro q hq hqp
    obtain ⟨h1, h2, h3⟩ := commit_away (t := { t with lt := lt }) now pos
      h.rows.wide hk.2.2 hqp (h.fits q hq)
    exact ⟨h1, h2, h3⟩
  obtain ⟨hshape', hlt, hiter⟩ := commit_head { t with lt := lt } now pos k w
  have hshape : SameShape t ({ t with lt := lt }.commit now k w pos) :=
    ⟨hshape'.num, hshape'.size, hshape'.rowNum, hshape'.rows, hshape'.starts, hshape'.hash⟩
  have hself := @commit_self t lt pos k w now h hk (valid_pos_lt hv) hold hnew
  generalize ht' : { t with lt := lt }.commit now k w pos = t' at *
  obtain ⟨hpos', hhash', hkey', hmaxle, hmaxlt, i, hi, hslot⟩ := hself
  refine ⟨⟨hshape.toRows h.rows, by rw [hshape.rowNum]; exact hmaxlt, ?_, ?_, ?_, ?_, ?_⟩, hshape,
    hlt, hpos', hkey', haway⟩
  · rw [hiter, hshape.num]; exact h.iter
  · intro q hq
    rw [hshape.num] at hq
    rw [hshape.maxKeyLen]
    by_cases hqp : q = w.pDataNode
    · rw [hqp, ← length_keyOf, hkey']; exact hk.2.2
    · rw [(haway q hq hqp).keyLen]; exact h.fits q hq
  · intro q hq hne
    rw [hshape.num] at hq
    rw [hshape.hash]
    by_cases hqp : q = w.pDataNode
    · rw [hqp, hkey']
      exact ⟨hhash', i, hi, by rw [hshape.slot]; exact hslot⟩
    · have hsame := haway q hq hqp
      rw [hsame.pos] at hne
      obtain ⟨hh, j, hj, hjs⟩ := h.placed q hq hne
      rw [hsame.hash, hsame.key]
      exact ⟨hh, j, Nat.le_trans hj hmaxle, by rw [hshape.slot]; exact hjs⟩
  · refine unique_of_same h hshape hkey' haway fun q hqp hhas => ?_
    cases hn : w.isNew with
    | true => exact (hnew hn).1 q hhas
    | false => exact hqp (h.has_unique hhas (hold hn))
  · rw [hlt, hshape.num]
    have hslots : slots t.ddwHashNodeNum t'.nodeLtPos =
        slots t.ddwHashNodeNum (Function.update t.nodeLtPos w.pDataNode pos) := by
      refine slots_congr fun q hq => ?_
      by_cases hqp : q = w.pDataNode
      · rw [hqp, hpos', Function.update_self]
      · rw [Function.update_of_ne hqp, (haway q hq hqp).pos]
    rw [hslots]
    exact (hv.perm (slots_exchange_perm t.nodeLtPos pos hp)).tail

/-! ## `SetData` as a whole -/

/-- The ways a call of `SetData` on `t` can end. -/
inductive SetEnds (t : MultiHashTable) (now : Nat) (k data : List UInt8) (evict : Bool) :
    Except MhtError Unit → MultiHashTable → Prop where
  | full : evict = false → (∀ p, ¬ t.Has k p) → SetEnds t now k data evict (.error .hashOutOfSpace) t
  | failed {w : Place} {t1 t2 t3 : MultiHashTable} {e : MhtError} :
      t.place k evict = (.ok w, t1) → Relation.ReflTransGen (Round data w.pDataNode) t1 t2 →
      (evict = false ∨ w.pOldestNode ≠ none → t2 = t1) →
      LastRound data evict w.pDataNode t2 w.pOldestNode (.error e, t3) →
      SetEnds t now k data evict (.error e) t3
  | done {w : Place} {t1 t2 t3 : MultiHashTable} {pos : Nat} :
      t.place k evict = (.ok w, t1) → Relation.ReflTransGen (Round data w.pDataNode) t1 t2 →
      (evict = false ∨ w.pOldestNode ≠ none → t2 = t1) →
      LastRound data evict w.pDataNode t2 w.pOldestNode (.ok pos, t3) →
      SetEnds t now k data evict (.ok ()) (t3.commit now k w pos)

/-- **`SetData` returns.** -/
theorem setData_ends {t : MultiHashTable} {k : List UInt8} (h : Inv t) (hk : t.ValidKey k)
    (data : List UInt8) (now : Nat) (evict : Bool) :
    ∃ r t', t.setData now k data evict = some (r, t') ∧ SetEnds t now k data evict r t' := by
  obtain ⟨hinv, hf, hkeep, hev, herr, hok⟩ := place_spec h hk evict
  unfold setData
  rw [if_neg hk.ne_nil]
  rcases hplace : t.place k evict with ⟨e | w, t1⟩
  · rw [hplace] at herr hev
    obtain ⟨rfl, hfalse, hno⟩ := herr e rfl
    obtain rfl : t1 = t := hev hfalse
    exact ⟨_, _, rfl, .full hfalse hno⟩
  · rw [hplace] at hinv hf hok
    have hp : w.pDataNode < t1.ddwHashNodeNum := by rw [hf.num]; exact (hok w rfl).node_lt
    obtain ⟨t2, r, heq, hrounds, hlast, hno⟩ := storeLoop_cases data evict (t1.ddwHashNodeNum + 1)
      w.pOldestNode hinv hp (Nat.lt_succ_of_le (occupied_le _ _))
    simp only [heq]
    obtain ⟨e | pos, t3⟩ := r
    · exact ⟨_, _, rfl, .failed hplace hrounds hno hlast⟩
    · exact ⟨_, _, rfl, .done hplace hrounds hno hlast⟩

section Last

variable {t t3 : MultiHashTable} {p : Nat} {data : List UInt8} {evict : Bool} {oldest : Option Nat}

theorem lastRound_error {e : MhtError} (h : Inv t) (hp : p < t.ddwHashNodeNum)
    (hl : LastRound data evict p t oldest (.error e, t3)) :
    Inv t3 ∧ Forgets t t3 ∧ KeepsNode t t3 p := by
  cases hl with
  | failed heq _ =>
    obtain ⟨h1, h2, h3⟩ := attempt_error h hp heq
    exact ⟨h1, h2, h3 p hp⟩
  | refused heq _ =>
    obtain ⟨h1, h2, h3⟩ := attempt_error h hp heq
    exact ⟨h1, h2, h3 p hp⟩
  | exhausted heq _ _ hev =>
    obtain ⟨h1, h2, h3⟩ := attempt_error h hp heq
    rcases searchAndEraseOldestOne_spec h1 p with ⟨t', heq', g1, g2, g3, -⟩ | ⟨o, t', heq', -⟩
    · obtain rfl : t' = t3 := by rw [heq'] at hev; simpa using hev
      exact ⟨g1, h2.trans g2, (h3 p hp).trans (g3 p hp)⟩
    · rw [heq'] at hev; simp at hev

/-- The two ways the write loop ends with `0`. -/
theorem lastRound_ok {pos : Nat} (h : Inv t) (hp : p < t.ddwHashNodeNum)
    (hsafe : data = [] → t.lt.NullFits)
    (hold : ∀ o, oldest = some o → o < t.ddwHashNodeNum ∧ o ≠ p)
    (hl : LastRound data evict p t oldest (.ok pos, t3)) :
    (∃ lt, t3 = { t with lt := lt } ∧ retCode (t.lt.setData (t.nodeLtPos p) data).1 = 0 ∧
      LinkTable.Exchanged t.lt (slots t.ddwHashNodeNum (Function.update t.nodeLtPos p 0)) pos lt ∧
      (data = [] → pos = 0) ∧
      (data ≠ [] → LinkTable.Stored t.lt
        (slots t.ddwHashNodeNum (Function.update t.nodeLtPos p 0)) data pos lt)) ∨
    (oldest ≠ none ∧ evict = true ∧ retCode (t.lt.setData (t.nodeLtPos p) data).1 = -100 ∧
      pos = t.nodeLtPos p ∧ Inv t3 ∧ Forgets t t3 ∧ KeepsNode t t3 p) := by
  cases hl with
  | @stored pos lt heq =>
    refine .inl ⟨lt, rfl, by rw [heq]; rfl, ?_⟩
    by_cases hd : data = []
    · subst hd
      obtain ⟨rfl, hex⟩ := LinkTable.setData_nil_exchanged (h.valid_cons hp) (hsafe rfl) heq
      exact ⟨hex, fun _ => rfl, fun hne => absurd rfl hne⟩
    · rcases attempt_cases h hp hd with ⟨e, lt', heq', -⟩ | ⟨pos', lt', heq', hst⟩
      · rw [heq'] at heq; simp at heq
      · obtain ⟨rfl, rfl⟩ : pos' = pos ∧ lt' = lt := by rw [heq'] at heq; simpa using heq
        exact ⟨hst.exchanged, fun h0 => absurd h0 hd, fun _ => hst⟩
  | @skipped o lt heq hev ho =>
    obtain ⟨hinv, hf, hk⟩ := attempt_error h hp heq
    obtain ⟨hlt, hne⟩ := hold _ ho
    obtain ⟨g1, g2, -, -, g5⟩ := eraseNode_spec hinv hlt
    exact .inr ⟨by simp [ho], hev, by rw [heq]; rfl, rfl, g1, hf.trans g2,
      (hk p hp).trans (g5 p hp (Ne.symm hne))⟩

end Last

/-- What every call of `SetData` guarantees about the table it leaves behind. -/
structure SetKeeps (t : MultiHashTable) (k : List UInt8) (t' : MultiHashTable) : Prop where
  inv : Inv t'
  shape : SameShape t t'
  blockSize : t'.lt.ddwBlockSize = t.lt.ddwBlockSize
  /-- Other keys are forgotten or read as before. -/
  others : ∀ k' p, k' ≠ k → t'.Has k' p → t.Has k' p ∧ ∀ n, t'.readNode p n = t.readNode p n

/-- The key reads as it did. -/
def SameKey (t t' : MultiHashTable) (k : List UInt8) : Prop :=
  (∀ p, t.Has k p → t'.Has k p ∧ ∀ n, t'.readNode p n = t.readNode p n) ∧
    ∀ p, t'.Has k p → t.Has k p

/-- The value was handed to the block store of `t2`, for node `p`. -/
structure StoredAt (t2 t' : MultiHashTable) (k data : List UInt8) (p : Nat) : Prop where
  asked : retCode (t2.lt.setData (t2.nodeLtPos p) data).1 = 0
  has : t'.Has k p
  holds : ¬ t2.lt.Overruns (t2.lt.blockCount data.length) → t'.lt.Holds (t'.nodeLtPos p) data
  lost : t2.lt.Overruns (t2.lt.blockCount data.length) → ∀ n, t'.readNode p n ≠ .ok data
  piece : ∃ d, d <:+ data ∧ d ≠ [] ∧ t'.lt.Holds (t'.nodeLtPos p) d

section Ends

variable {t t' : MultiHashTable} {k data : List UInt8} {evict : Bool} {now : Nat}

theorem Forgets.setKeeps (hf : Forgets t t') (hinv : Inv t') : SetKeeps t k t' :=
  ⟨hinv, hf.toSameShape, hf.blockSize, fun _ _ _ hp => hf.has hp⟩

/-- A table `t2` in which the write loop makes an attempt, for the place `w` that was found in `t`. -/
structure Attempting (t t2 : MultiHashTable) (k : List UInt8) (w : Place) : Prop where
  inv : Inv t2
  forgets : Forgets t t2
  node_lt : w.pDataNode < t2.ddwHashNodeNum
  keeps : ∀ p, t.Has k p → KeepsNode t t2 p
  node : ∀ p, t.Has k p → w.pDataNode = p
  old : w.isNew = false → t.Has k w.pDataNode
  new : w.isNew = true → (∀ q, ¬ t.Has k q) ∧ t2.nodeLtPos w.pDataNode = 0 ∧
    w.emptyrow < t2.ddwRowNum ∧
    ∃ i, i ≤ max t2.ddwMaxUsedRow w.emptyrow ∧ w.pDataNode = t2.slot (t2.hashfunc k).toNat i
  oldest : ∀ o, w.pOldestNode = some o → o < t2.ddwHashNodeNum ∧ o ≠ w.pDataNode

/-- The state in which the write loop makes its last attempt. -/
theorem rounds_placed {w : Place} {t1 t2 : MultiHashTable} (h : Inv t) (hk : t.ValidKey k)
    (hplace : t.place k evict = (.ok w, t1))
    (hr : Relation.ReflTransGen (Round data w.pDataNode) t1 t2) : Attempting t t2 k w := by
  obtain ⟨hinv, hf, hkeep, -, -, hok⟩ := place_spec h hk evict
  rw [hplace] at hinv hf hkeep hok
  have hpl := hok w rfl
  have hp1 : w.pDataNode < t1.ddwHashNodeNum := by rw [hf.num]; exact hpl.node_lt
  obtain ⟨hinv2, hf2, hk2⟩ := rounds_spec hinv hp1 hr
  have hft := hf.trans hf2
  have hnode : ∀ p, t.Has k p → w.pDataNode = p := by
    intro p hp
    cases hn : w.isNew with
    | true => exact absurd hp ((hpl.new hn).1 p)
    | false => exact h.has_unique (hpl.old hn) hp
  refine ⟨hinv2, hft, by rw [hft.num]; exact hpl.node_lt,
    fun p hp => (hkeep p hp).trans (hnode p hp ▸ hk2), hnode, hpl.old, fun hn => ?_, fun o ho => ?_⟩
  · obtain ⟨h1, h2, h3, i, hi, hslot⟩ := hpl.new hn
    refine ⟨h1, by rw [hk2.1.pos]; exact h2, by rw [hft.rowNum]; exact h3, i, ?_, ?_⟩
    · rw [hft.maxRow]; exact hi
    · rw [hft.toSameShape.slot, hft.hash]; exact hslot
  · obtain ⟨h1, h2, -⟩ := hpl.oldest o ho
    exact ⟨by rw [hft.num]; exact h1, h2⟩

/-- **A failed `SetData`** has only forgotten, and the key reads as it did. -/
theorem setEnds_error {e : MhtError} (h : Inv t) (hk : t.ValidKey k)
    (hend : SetEnds t now k data evict (.error e) t') : SetKeeps t k t' ∧ SameKey t t' k := by
  cases hend with
  | full _ hno =>
    exact ⟨(Forgets.refl t).setKeeps h, fun p hp => absurd hp (hno p), fun p hp => hp⟩
  | @failed w t1 t2 t3 e hplace hr _ hl =>
    have hat := rounds_placed h hk hplace hr
    obtain ⟨hinv3, hf3, hk3⟩ := lastRound_error hat.inv hat.node_lt hl
    have hf := hat.forgets.trans hf3
    refine ⟨hf.setKeeps hinv3, fun p hp => ?_, fun p hp => (hf.has hp).1⟩
    have hpw : w.pDataNode = p := hat.node p hp
    exact ((hat.keeps p hp).trans (hpw ▸ hk3)).has hf.toSameShape hp

/-- An EMPTY value may be stored under `k`: whatever table the write loop asks, its free list is
    empty, or its block store refuses. -/
def NullSafe (t : MultiHashTable) (k : List UInt8) (evict : Bool) : Prop :=
  ∀ w t1 t2, t.place k evict = (.ok w, t1) →
    Relation.ReflTransGen (Round [] w.pDataNode) t1 t2 → (evict = false → t2 = t1) →
    t2.lt.NullFits

theorem Attempting.old_has {t2 : MultiHashTable} {w : Place} (h : Attempting t t2 k w)
    (hn : w.isNew = false) : t2.Has k w.pDataNode :=
  ((h.keeps _ (h.old hn)).has h.forgets.toSameShape (h.old hn)).1

theorem Attempting.new_absent {t2 : MultiHashTable} {w : Place} (h : Attempting t t2 k w)
    (hn : w.isNew = true) (q : Nat) : ¬ t2.Has k q := fun hq =>
  (h.new hn).1 q (h.forgets.has hq).1

/-- The node is written after its value was stored. -/
theorem commit_stored {t2 : MultiHashTable} {w : Place} {pos : Nat} {lt : LinkTable}
    (hk : t.ValidKey k) (h : Attempting t t2 k w)
    (hret : retCode (t2.lt.setData (t2.nodeLtPos w.pDataNode) data).1 = 0)
    (hex : LinkTable.Exchanged t2.lt
      (slots t2.ddwHashNodeNum (Function.update t2.nodeLtPos w.pDataNode 0)) pos lt)
    (hnil : data = [] → pos = 0)
    (hstore : data ≠ [] → LinkTable.Stored t2.lt
      (slots t2.ddwHashNodeNum (Function.update t2.nodeLtPos w.pDataNode 0)) data pos lt)
    (heq : t' = { t2 with lt := lt }.commit now k w pos) :
    SetKeeps t k t' ∧
      (data ≠ [] ∧ StoredAt t2 t' k data w.pDataNode ∨ data = [] ∧ ∀ p, ¬ t'.Has k p) := by
  obtain ⟨g1, g2, g3, g4, g5, g6⟩ := commit_spec now h.inv h.node_lt
    (h.forgets.toSameShape.validKey.mpr hk) hex.valid h.old_has
    (fun hn => ⟨h.new_absent hn, (h.new hn).2.2.1, (h.new hn).2.2.2⟩)
  rw [← heq] at g1 g2 g3 g4 g5 g6
  -- another node has the key it had before
  have hother : ∀ k' p, p ≠ w.pDataNode → t'.Has k' p →
      SameNode t2 t' p ∧ t2.Has k' p ∧ p < t2.ddwHashNodeNum := by
    intro k' p hpw hp
    have hplt : p < t2.ddwHashNodeNum := by rw [← g2.num]; exact hp.1
    have hsame := g6 p hplt hpw
    exact ⟨hsame, ⟨hplt, by rw [← hsame.pos]; exact hp.2.1, hsame.key ▸ hp.2.2⟩, hplt⟩
  refine ⟨⟨g1, h.forgets.toSameShape.trans g2, by rw [g3, hex.size, h.forgets.blockSize], ?_⟩, ?_⟩
  · intro k' p hkk hp
    have hpw : p ≠ w.pDataNode := by
      rintro rfl
      exact hkk (hp.2.2.symm.trans g5)
    obtain ⟨hsame, hp2, hplt⟩ := hother k' p hpw hp
    obtain ⟨hpt, hreads⟩ := h.forgets.has hp2
    refine ⟨hpt, fun n => ?_⟩
    rw [← hreads n, readNode, readNode, hsame.pos, g3]
    have hkeepv := (h.inv.valid_cons h.node_lt).tail
    rw [hkeepv.getData_keep (mem_slots_update hplt hpw) hex.all hex.size hex.keeps]
  · by_cases hd : data = []
    · -- the node is empty now, and no other one had the key
      refine .inr ⟨hd, fun p hp => ?_⟩
      by_cases hpw : p = w.pDataNode
      · rw [hpw] at hp
        exact hp.2.1 (g4.trans (hnil hd))
      · obtain ⟨_, hp2, _⟩ := hother k p hpw hp
        exact hpw (h.node p (h.forgets.has hp2).1).symm
    · have hst := hstore hd
      have hhas : t'.Has k w.pDataNode :=
        ⟨by rw [g2.num]; exact h.node_lt, by rw [g4]; exact hst.ne_zero, g5⟩
      refine .inl ⟨hd, hret, hhas, fun hnov => ?_, fun hov n hread => ?_, ?_⟩
      · rw [g3, g4]
        exact hst.holds hnov
      · rw [readNode, g3, g4] at hread
        refine hst.lost hov n ?_
        cases hg : lt.getData pos n with
        | error e => rw [hg] at hread; simp at hread
        | ok d => rw [hg] at hread; simpa using hread
      · rw [g3, g4]
        exact hst.piece

/-- The node is written with the position that it has. -/
theorem commit_skipped {t2 t3 : MultiHashTable} {w : Place} (hk : t.ValidKey k)
    (h : Attempting t t2 k w) (hinv3 : Inv t3) (hf3 : Forgets t2 t3)
    (hk3 : KeepsNode t2 t3 w.pDataNode) (heq : t' = t3.commit now k w (t2.nodeLtPos w.pDataNode)) :
    SetKeeps t k t' ∧ SameKey t t' k := by
  have hf := h.forgets.trans hf3
  have hp3 : w.pDataNode < t3.ddwHashNodeNum := by rw [hf3.num]; exact h.node_lt
  have hpos3 : t3.nodeLtPos w.pDataNode = t2.nodeLtPos w.pDataNode := hk3.1.pos
  have hv3 := hinv3.valid_cons hp3
  rw [hpos3] at hv3
  have hhas3 : w.isNew = false → t3.Has k w.pDataNode := fun hn =>
    (hk3.has hf3.toSameShape (h.old_has hn)).1
  have hnone3 : w.isNew = true → ∀ q, ¬ t3.Has k q := fun hn q hq =>
    h.new_absent hn q (hf3.has hq).1
  have hrow3 : w.isNew = true → w.emptyrow < t3.ddwRowNum ∧
      ∃ i, i ≤ max t3.ddwMaxUsedRow w.emptyrow ∧
        w.pDataNode = t3.slot (t3.hashfunc k).toNat i := by
    intro hn
    obtain ⟨-, -, hrow, i, hi, hslot⟩ := h.new hn
    rw [hf3.rowNum, hf3.maxRow, hf3.hash]
    exact ⟨hrow, i, hi, by rw [hf3.toSameShape.slot]; exact hslot⟩
  obtain ⟨g1, g2, g3, g4, g5, g6⟩ := commit_spec now hinv3 hp3
    (hf.toSameShape.validKey.mpr hk) hv3 hhas3 (fun hn => ⟨hnone3 hn, hrow3 hn⟩)
  have heta : ({ t3 with lt := t3.lt } : MultiHashTable) = t3 := rfl
  rw [heta, ← heq] at g1 g2 g3 g4 g5 g6
  -- every node has the position and the readings it had in `t3`
  have hback : ∀ k' p, t'.Has k' p → t3.Has k' p ∧ ∀ n, t'.readNode p n = t3.readNode p n := by
    intro k' p hp
    have hplt : p < t3.ddwHashNodeNum := by rw [← g2.num]; exact hp.1
    by_cases hpw : p = w.pDataNode
    · subst hpw
      have hne : t3.nodeLtPos w.pDataNode ≠ 0 := by rw [hpos3, ← g4]; exact hp.2.1
      have hkk : k' = k := hp.2.2.symm.trans g5
      cases hn : w.isNew with
      | true => exact absurd (hk3.1.pos.trans (h.new hn).2.1) hne
      | false =>
        refine ⟨hkk ▸ hhas3 hn, fun n => ?_⟩
        rw [readNode, readNode, g3, g4, hpos3]
    · have hsame := g6 p hplt hpw
      refine ⟨⟨hplt, by rw [← hsame.pos]; exact hp.2.1, hsame.key ▸ hp.2.2⟩, fun n => ?_⟩
      rw [readNode, readNode, g3, hsame.pos]
  refine ⟨⟨g1, hf.toSameShape.trans g2, by rw [g3, hf.blockSize], ?_⟩, ?_, ?_⟩
  · intro k' p _ hp
    obtain ⟨h3, hr3⟩ := hback k' p hp
    obtain ⟨h0, hr0⟩ := hf.has h3
    exact ⟨h0, fun n => (hr3 n).trans (hr0 n)⟩
  · intro p hp
    obtain rfl := h.node p hp
    obtain ⟨h3, hr3⟩ := ((h.keeps _ hp).trans hk3).has hf.toSameShape hp
    have hp' : t'.Has k w.pDataNode :=
      ⟨by rw [g2.num]; exact hp3, by rw [g4, ← hpos3]; exact h3.2.1, g5⟩
    exact ⟨hp', fun n => ((hback k _ hp').2 n).trans (hr3 n)⟩
  · intro p hp
    exact (hf.has (hback k p hp).1).1

/-- **A `SetData` that returned `0`** has stored the value, has made the key absent (when the value
    is empty), or has skipped the store. -/
theorem setEnds_written (h : Inv t) (hk : t.ValidKey k) (hsafe : data = [] → t.NullSafe k evict)
    (hend : SetEnds t now k data evict (.ok ()) t') :
    SetKeeps t k t' ∧
    ∃ w t1 t2, t.place k evict = (.ok w, t1) ∧
      Relation.ReflTransGen (Round data w.pDataNode) t1 t2 ∧
      (evict = false ∨ w.pOldestNode ≠ none → t2 = t1) ∧
      (data ≠ [] ∧ StoredAt t2 t' k data w.pDataNode ∨ data = [] ∧ (∀ p, ¬ t'.Has k p) ∨
        w.pOldestNode ≠ none ∧ evict = true ∧
          retCode (t2.lt.setData (t2.nodeLtPos w.pDataNode) data).1 = -100 ∧ SameKey t t' k) := by
  cases hend with
  | @done w t1 t2 t3 pos hplace hr hno hl =>
    have hat := rounds_placed h hk hplace hr
    have hsafe2 : data = [] → t2.lt.NullFits := by
      rintro rfl
      exact hsafe rfl w t1 t2 hplace hr fun hev => hno (.inl hev)
    rcases lastRound_ok hat.inv hat.node_lt hsafe2 hat.oldest hl with
      ⟨lt, rfl, hret, hex, hnil, hstore⟩ | ⟨ho, hev, hret, rfl, hinv3, hf3, hk3⟩
    · obtain ⟨hkeeps, hcase⟩ := commit_stored hk hat hret hex hnil hstore rfl
      exact ⟨hkeeps, w, t1, t2, hplace, hr, hno, hcase.imp_right .inl⟩
    · obtain ⟨hkeeps, hsame⟩ := commit_skipped hk hat hinv3 hf3 hk3 rfl
      exact ⟨hkeeps, w, t1, t2, hplace, hr, hno, .inr (.inr ⟨ho, hev, hret, hsame⟩)⟩

/-- A value that is not empty has been stored, or the store has been skipped. -/
theorem setEnds_ok (h : Inv t) (hk : t.ValidKey k) (hd : data ≠ [])
    (hend : SetEnds t now k data evict (.ok ()) t') :
    SetKeeps t k t' ∧
    ∃ w t1 t2, t.place k evict = (.ok w, t1) ∧
      Relation.ReflTransGen (Round data w.pDataNode) t1 t2 ∧
      (evict = false ∨ w.pOldestNode ≠ none → t2 = t1) ∧
      (StoredAt t2 t' k data w.pDataNode ∨
        w.pOldestNode ≠ none ∧ evict = true ∧
          retCode (t2.lt.setData (t2.nodeLtPos w.pDataNode) data).1 = -100 ∧ SameKey t t' k) := by
  obtain ⟨hkeeps, w, t1, t2, hplace, hr, hno, hcase⟩ :=
    setEnds_written h hk (fun h0 => absurd h0 hd) hend
  refine ⟨hkeeps, w, t1, t2, hplace, hr, hno, ?_⟩
  rcases hcase with ⟨-, hst⟩ | ⟨h0, -⟩ | hskip
  · exact .inl hst
  · exact absurd h0 hd
  · exact .inr hskip

end Ends

end MysqlProxy.MultiHashTable
