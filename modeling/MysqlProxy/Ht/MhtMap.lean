/-
  Without eviction a `MultiHashTable` is a finite map.

  `MapState` is a table with the map that it should be: `SetData` that returns `0` updates the map,
  `EraseData` that returns `1` removes the key, everything else leaves the map alone.  The relation
  between the two is `Represents`: a key that the map knows has a node that reads as its value, a
  key that it does not know has none.

  One call keeps the relation unless it makes the block store overrun (`step_represents`), so in
  every state of every run without an overrun the table IS the map (`run_isMap`).
-/
import MysqlProxy.Ht.MhtRun

namespace MysqlProxy

/-- The calls. -/
inductive MapOp where
  | setData (now : Nat) (k data : List UInt8)
  | eraseData (k : List UInt8)
  | getData (now : Nat) (k : List UInt8) (n : Nat) (upd : Bool)

/-- A table and the finite map that it should be. -/
structure MapState where
  table : MultiHashTable
  map : List UInt8 → Option (List UInt8)

namespace MapState

open MultiHashTable

/-- Keys that fit, values that are not empty. -/
def Legal (s : MapState) : MapOp → Prop
  | .setData _ k data => s.table.ValidKey k ∧ data ≠ []
  | .eraseData k => s.table.ValidKey k
  | .getData _ k _ _ => s.table.ValidKey k

/-- One call, without eviction. -/
def exec (s : MapState) : MapOp → Option MapState
  | .setData now k data =>
    match s.table.setData now k data false with
    | none => none
    | some (.ok _, t) => some ⟨t, Function.update s.map k (some data)⟩
    | some (.error _, t) => some ⟨t, s.map⟩
  | .eraseData k =>
    match s.table.eraseData k with
    | (.ok 1, t) => some ⟨t, Function.update s.map k none⟩
    | (_, t) => some ⟨t, s.map⟩
  | .getData now k n upd => some ⟨(s.table.getData now k n upd).table, s.map⟩

/-- One legal call that also meets `allowed`. -/
def Step (allowed : MapState → MapOp → Prop) (s s' : MapState) : Prop :=
  ∃ op, s.Legal op ∧ allowed s op ∧ s.exec op = some s'

/-- The call does not make the block store overrun. -/
def NoOverrun (s : MapState) : MapOp → Prop
  | .setData _ _ data => ¬ s.table.lt.Overruns (s.table.lt.blockCount data.length)
  | _ => True

/-- What `GetData` returns for the value `v` with a buffer of `n` bytes: the value, if there is
    room for all of its blocks. -/
def reading (lt : LinkTable) (v : List UInt8) (n : Nat) : Except MhtError (List UInt8) :=
  if n < lt.BLOCK_DATA_LEN then .error (.linkTableGet .badArgument)
  else if n < lt.blockCount v.length * lt.BLOCK_DATA_LEN then
    .error (.linkTableGet .notEnoughSpaceForData)
  else .ok v

/-- The table behaves as the map. -/
structure IsMap (s : MapState) : Prop where
  /-- `GetData` returns the value of the map, and nothing for a key without one. -/
  get : ∀ k, s.table.ValidKey k → ∀ now n upd, 1 ≤ n →
    (s.table.getData now k n upd).result =
      match s.map k with
      | none => .ok []
      | some v => reading s.table.lt v n
  /-- `EraseData` tells whether the key was there. -/
  erase : ∀ k, s.table.ValidKey k →
    (s.table.eraseData k).1 = .ok (if (s.map k).isSome then 1 else 0)
  /-- `SetData` returns, and a failure changes no reading of any key. -/
  failed : ∀ k data, s.table.ValidKey k → data ≠ [] → ∀ now, ∃ r t',
    s.table.setData now k data false = some (r, t') ∧
      ∀ e, r = .error e → ∀ k', s.table.ValidKey k' → ReadsAlike s.table t' k'

/-! ## The relation -/

/-- Key `k` of the table is as the map says. -/
def Entry (t : MultiHashTable) (k : List UInt8) : Option (List UInt8) → Prop
  | none => ∀ p, ¬ t.Has k p
  | some v => ∃ p, t.Has k p ∧ ∀ n, t.readNode p n = reading t.lt v n

/-- The relation between the table and the map. -/
structure Represents (s : MapState) : Prop where
  inv : Inv s.table
  entry : ∀ k, s.table.ValidKey k → Entry s.table k (s.map k)

section Entries

variable {t t' : MultiHashTable} {k : List UInt8}

theorem reading_congr {lt lt' : LinkTable} (h : lt'.ddwBlockSize = lt.ddwBlockSize)
    (v : List UInt8) (n : Nat) : reading lt' v n = reading lt v n := by
  unfold reading LinkTable.blockCount LinkTable.BLOCK_DATA_LEN
  rw [h]

theorem Entry.of_sameKey {o : Option (List UInt8)} (h : Entry t k o) (hs : SameKey t t' k)
    (hsize : t'.lt.ddwBlockSize = t.lt.ddwBlockSize) : Entry t' k o := by
  cases o with
  | none => exact fun p hp => h p (hs.2 p hp)
  | some v =>
    obtain ⟨p, hp, hread⟩ := h
    obtain ⟨hp', hread'⟩ := hs.1 p hp
    exact ⟨p, hp', fun n => by rw [hread' n, hread n, reading_congr hsize]⟩

/-- A table with the same entries represents the same map. -/
theorem Represents.of_sameKeys {m : List UInt8 → Option (List UInt8)} (h : Represents ⟨t, m⟩)
    (hinv : Inv t') (hsh : SameShape t t') (hsize : t'.lt.ddwBlockSize = t.lt.ddwBlockSize)
    (hs : ∀ k, t.ValidKey k → SameKey t t' k) : Represents ⟨t', m⟩ := by
  refine ⟨hinv, fun k hk => ?_⟩
  have hk0 := hsh.validKey.mp hk
  exact (h.entry k hk0).of_sameKey (hs k hk0) hsize

/-- Changing one entry changes the map at one key. -/
theorem Represents.update {m : List UInt8 → Option (List UInt8)} {o : Option (List UInt8)}
    (h : Represents ⟨t, m⟩) (hinv : Inv t') (hsh : SameShape t t')
    (hsize : t'.lt.ddwBlockSize = t.lt.ddwBlockSize)
    (hs : ∀ k', t.ValidKey k' → k' ≠ k → SameKey t t' k') (hk : Entry t' k o) :
    Represents ⟨t', Function.update m k o⟩ := by
  refine ⟨hinv, fun k' hk' => ?_⟩
  show Entry t' k' (Function.update m k o k')
  by_cases hkk : k' = k
  · rw [hkk, Function.update_self]
    exact hk
  · have hk0 := hsh.validKey.mp hk'
    rw [Function.update_of_ne hkk]
    exact (h.entry k' hk0).of_sameKey (hs k' hk0 hkk) hsize

/-- Nodes that are kept keep their keys. -/
theorem sameKey_of_keeps (hf : Forgets t t') (hk : ∀ p, t.Has k p → KeepsNode t t' p) :
    SameKey t t' k :=
  ⟨fun p hp => (hk p hp).has hf.toSameShape hp, fun _ hp => (hf.has hp).1⟩

end Entries

/-! ## `SetData` without eviction -/

section NoEviction

variable {t t' : MultiHashTable} {now : Nat} {k data : List UInt8} {r : Except MhtError Unit}

/-- Without eviction no entry is lost. -/
theorem setEnds_noEvict (h : Inv t) (hk : t.ValidKey k)
    (hend : SetEnds t now k data false r t') :
    ∀ k' p, k' ≠ k → t.Has k' p → t'.Has k' p := by
  intro k' p hkk hp
  have hplaced : ∀ {w t1}, t.place k false = (.ok w, t1) → t1 = t ∧ Placed t t1 k w := by
    intro w t1 hplace
    obtain ⟨-, -, -, hev, -, hok⟩ := place_spec h hk false
    rw [hplace] at hev hok
    exact ⟨hev rfl, hok w rfl⟩
  cases hend with
  | full => exact hp
  | @failed w t1 t2 t3 e hplace _ hno hl =>
    obtain ⟨rfl, -⟩ := hplaced hplace
    obtain rfl := hno (.inl rfl)
    cases hl with
    | failed => exact hp
    | refused => exact hp
    | exhausted _ hev => simp at hev
  | @done w t1 t2 t3 pos hplace _ hno hl =>
    obtain ⟨rfl, hpl⟩ := hplaced hplace
    obtain rfl := hno (.inl rfl)
    have hpw : p ≠ w.pDataNode := by
      rintro rfl
      cases hn : w.isNew with
      | true => exact hp.2.1 (hpl.new hn).2.1
      | false => exact hkk (hp.2.2.symm.trans (hpl.old hn).2.2)
    cases hl with
    | skipped _ hev _ => simp at hev
    | @stored _ lt heq =>
      obtain ⟨-, hpos, hkey⟩ := commit_away (t := { t2 with lt := lt }) now pos
        h.rows.wide hk.2.2 hpw (h.fits p hp.1)
      have hnum := (commit_head { t2 with lt := lt } now pos k w).1.num
      exact ⟨by rw [hnum]; exact hp.1, by rw [hpos]; exact hp.2.1, hkey.trans hp.2.2⟩

theorem setEnds_sameKey (h : Inv t) (hk : t.ValidKey k) (hkeeps : SetKeeps t k t')
    (hend : SetEnds t now k data false r t') {k' : List UInt8} (hkk : k' ≠ k) : SameKey t t' k' := by
  refine ⟨fun p hp => ?_, fun p hp => (hkeeps.others k' p hkk hp).1⟩
  have hp' := setEnds_noEvict h hk hend k' p hkk hp
  exact ⟨hp', (hkeeps.others k' p hkk hp').2⟩

/-- The new entry of a write that succeeded. -/
theorem setEnds_entry (h : Inv t) (hk : t.ValidKey k) (hd : data ≠ [])
    (hend : SetEnds t now k data false (.ok ()) t')
    (hno : ¬ t.lt.Overruns (t.lt.blockCount data.length)) : Entry t' k (some data) := by
  have hinv' := (hend.keeps h hk hd).inv
  obtain ⟨-, w, t1, t2, hplace, -, hstay, hst | ⟨-, hev, -⟩⟩ := setEnds_ok h hk hd hend
  · have ht1 := (place_spec h hk false).2.2.2.1 rfl
    rw [hplace] at ht1
    obtain rfl : t2 = t := (hstay (.inl rfl)).trans ht1
    refine ⟨w.pDataNode, hst.has, fun n => ?_⟩
    rw [readNode, (hst.holds hno).getData hinv'.lt.toGeometry, reading]
    split_ifs <;> rfl
  · simp at hev

end NoEviction

/-! ## Steps and runs -/

section Runs

variable {s s' : MapState}

theorem setData_represents {now : Nat} {k data : List UInt8} (h : s.Represents)
    (hk : s.table.ValidKey k) (hd : data ≠ []) (hno : s.NoOverrun (.setData now k data))
    (heq : s.exec (.setData now k data) = some s') : s'.Represents := by
  obtain ⟨r, t', hset, hend⟩ := setData_ends h.inv hk data now false
  have hkeeps := hend.keeps h.inv hk hd
  have hothers : ∀ k', s.table.ValidKey k' → k' ≠ k → SameKey s.table t' k' :=
    fun k' _ hkk => setEnds_sameKey h.inv hk hkeeps hend hkk
  cases r with
  | error e =>
    simp only [exec, hset, Option.some.injEq] at heq
    subst heq
    refine h.of_sameKeys hkeeps.inv hkeeps.shape hkeeps.blockSize fun k' hk' => ?_
    by_cases hkk : k' = k
    · exact hkk ▸ (setEnds_error h.inv hk hend).2
    · exact hothers k' hk' hkk
  | ok u =>
    simp only [exec, hset, Option.some.injEq] at heq
    subst heq
    exact h.update hkeeps.inv hkeeps.shape hkeeps.blockSize hothers
      (setEnds_entry h.inv hk hd hend hno)

/-- What `EraseData` returns and leaves behind. -/
theorem eraseData_cases {t : MultiHashTable} {k : List UInt8} (h : Inv t) (hk : t.ValidKey k) :
    (∃ p, t.Has k p ∧ t.eraseData k = (.ok 1, t.eraseNode p)) ∨
      (∀ p, ¬ t.Has k p) ∧ t.eraseData k = (.ok 0, t) := by
  have hsame := (search_spec h.maxRow k (t.hashfunc k).toNat).1
  unfold eraseData
  rw [if_neg hk.ne_nil]
  simp only [hsame]
  cases hnode : (t.search k (t.hashfunc k).toNat).1.node with
  | some p => exact .inl ⟨p, (search_node h hk).mp hnode, rfl⟩
  | none => exact .inr ⟨(search_none h hk).mp hnode, rfl⟩

theorem eraseData_represents {k : List UInt8} (h : s.Represents)
    (hk : s.table.ValidKey k) (heq : s.exec (.eraseData k) = some s') :
    s'.Represents := by
  rcases eraseData_cases h.inv hk with ⟨p, hp, he⟩ | ⟨-, he⟩
  · simp only [exec, he, Option.some.injEq] at heq
    subst heq
    obtain ⟨hinv, hf, h0, -, hkeep⟩ := eraseNode_spec h.inv hp.1
    refine h.update hinv hf.toSameShape hf.blockSize (fun k' _ hkk => ?_) fun q hq => ?_
    · refine sameKey_of_keeps hf fun q hq => hkeep q hq.1 ?_
      rintro rfl
      exact hkk (hq.2.2.symm.trans hp.2.2)
    · -- the node of the key is the one that was erased
      obtain rfl := h.inv.has_unique (hf.has hq).1 hp
      exact hq.2.1 h0
  · simp only [exec, he, Option.some.injEq] at heq
    subst heq
    exact h

theorem getData_represents {now n : Nat} {k : List UInt8} {upd : Bool}
    (h : s.Represents) (hk : s.table.ValidKey k)
    (heq : s.exec (.getData now k n upd) = some s') : s'.Represents := by
  simp only [exec, Option.some.injEq] at heq
  subst heq
  show Represents ⟨(s.table.getData now k n upd).table, s.map⟩
  rcases Nat.lt_or_ge n 1 with hn | hn
  · rw [(getData_small hn now upd).2]
    exact h
  by_cases hex : ∃ p, s.table.Has k p
  · obtain ⟨p, hp⟩ := hex
    rw [(getData_has h.inv hk hn hp now upd).2]
    cases upd with
    | false => exact h
    | true =>
      obtain ⟨hinv, hf, hkeep⟩ := touch_spec (p := p) h.inv now
      exact h.of_sameKeys hinv hf.toSameShape hf.blockSize fun k' _ =>
        sameKey_of_keeps hf fun q hq => hkeep q hq.1
  · rw [(getData_absent h.inv hk hn (fun p hp => hex ⟨p, hp⟩) now upd).2]
    exact h

/-- **One call keeps the relation.** -/
theorem step_represents (h : s.Represents) (hs : Step NoOverrun s s') :
    s'.Represents := by
  obtain ⟨op, hl, hno, heq⟩ := hs
  cases op with
  | setData now k data => exact setData_represents h hl.1 hl.2 hno heq
  | eraseData k => exact eraseData_represents h hl heq
  | getData now k n upd => exact getData_represents h hl heq

/-- A table that represents the map behaves as the map. -/
theorem Represents.isMap (h : s.Represents) : s.IsMap := by
  refine ⟨fun k hk now n upd hn => ?_, fun k hk => ?_, fun k data hk hd now => ?_⟩
  · have he := h.entry k hk
    cases hm : s.map k with
    | none =>
      rw [hm] at he
      exact (getData_absent h.inv hk hn he now upd).1
    | some v =>
      rw [hm] at he
      obtain ⟨p, hp, hread⟩ := he
      rw [(getData_has h.inv hk hn hp now upd).1, hread n]
  · have he := h.entry k hk
    rcases eraseData_cases h.inv hk with ⟨p, hp, heq⟩ | ⟨hno, heq⟩
    · cases hm : s.map k with
      | none =>
        rw [hm] at he
        exact absurd hp (he p)
      | some v => rw [heq]; rfl
    · cases hm : s.map k with
      | none => rw [heq]; rfl
      | some v =>
        rw [hm] at he
        obtain ⟨p, hp, -⟩ := he
        exact absurd hp (hno p)
  · obtain ⟨r, t', heq, hend⟩ := setData_ends h.inv hk data now false
    refine ⟨r, t', heq, ?_⟩
    rintro e rfl k' hk'
    have hkeeps := hend.keeps h.inv hk hd
    have hsame : SameKey s.table t' k' := by
      by_cases hkk : k' = k
      · exact hkk ▸ (setEnds_error h.inv hk hend).2
      · exact setEnds_sameKey h.inv hk hkeeps hend hkk
    exact hsame.readsAlike h.inv hkeeps.inv hkeeps.shape hk'

/-- A new table has no entries. -/
theorem created_absent {t : MultiHashTable} (h : Created t) (k : List UInt8) (p : Nat) :
    ¬ t.Has k p := by
  intro hp
  obtain ⟨_, _, _, _, _, _, _, hinit, -⟩ := h
  obtain ⟨⟨rows, hf⟩, -⟩ := initFromBuffer_fresh hinit
  exact hp.2.1 (hf.ltPos p)

/-- A new table is the empty map. -/
theorem created_represents {t : MultiHashTable} (h : Created t) : Represents ⟨t, fun _ => none⟩ :=
  ⟨created_inv h, fun k _ p => created_absent h k p⟩

/-- **The table is a finite map.**  In every state of every run without an overrun, all readings
    and all answers are those of the map. -/
theorem run_isMap {t : MultiHashTable} (h : Created t)
    (hrun : Relation.ReflTransGen (Step NoOverrun) ⟨t, fun _ => none⟩ s) : s.IsMap := by
  exact (run_invariant hrun (created_represents h) step_represents).isMap

end Runs

/-! ## One write into a small table -/

/-- The state after `data` has been written to key `01` of `smallTable`. -/
def oneWrite (data : List UInt8) : MapState :=
  ⟨((smallTable.setData 0 [1] data false).map Prod.snd).getD smallTable,
    Function.update (fun _ => none) [1] (some data)⟩

theorem oneWrite_step (allowed : MapState → MapOp → Prop) (data : List UInt8) (hd : data ≠ [])
    (hallowed : allowed ⟨smallTable, fun _ => none⟩ (.setData 0 [1] data))
    (hok : (smallTable.setData 0 [1] data false).map Prod.fst = some (.ok ())) :
    Relation.ReflTransGen (Step allowed) ⟨smallTable, fun _ => none⟩ (oneWrite data) := by
  refine Relation.ReflTransGen.single ⟨.setData 0 [1] data, ⟨by decide, hd⟩, hallowed, ?_⟩
  unfold exec oneWrite
  rcases heq : smallTable.setData 0 [1] data false with _ | ⟨r, t'⟩
  · rw [heq] at hok
    simp at hok
  · obtain rfl : r = .ok () := by rw [heq] at hok; simpa using hok
    simp only [heq, Option.map_some, Option.getD_some]

theorem run_isMap_oneWrite :
    (oneWrite [9]).map [1] = some [9] ∧ (oneWrite [9]).IsMap := by
  refine ⟨rfl, run_isMap smallTable_created (oneWrite_step _ _ (by decide) ?_ (by decide +kernel))⟩
  show ¬ smallTable.lt.Overruns (smallTable.lt.blockCount 1)
  decide +kernel

/-- **The defect.**  241 bytes need three blocks, two are usable: the write returns `0` and the
    read gives the last byte. -/
theorem overrun_not_map : ∃ s,
    Relation.ReflTransGen (Step fun _ _ => True) ⟨smallTable, fun _ => none⟩ s ∧
    s.map [1] = some (List.replicate 240 7 ++ [9]) ∧
    (s.table.getData 0 [1] 360 true).result = .ok [9] ∧ ¬ s.IsMap := by
  have hrun := oneWrite_step (fun _ _ => True) (List.replicate 240 7 ++ [9])
    (by decide) trivial (by decide +kernel)
  have hread : ((oneWrite (List.replicate 240 7 ++ [9])).table.getData 0 [1] 360 true).result =
      .ok [9] := by decide +kernel
  have hval : reading (oneWrite (List.replicate 240 7 ++ [9])).table.lt
      (List.replicate 240 7 ++ [9]) 360 ≠ .ok [9] := by decide +kernel
  have hkey : (oneWrite (List.replicate 240 7 ++ [9])).table.ValidKey [1] := by decide +kernel
  have hmap : (oneWrite (List.replicate 240 7 ++ [9])).map [1] =
      some (List.replicate 240 7 ++ [9]) := rfl
  generalize oneWrite (List.replicate 240 7 ++ [9]) = s at hrun hread hval hkey hmap
  refine ⟨s, hrun, hmap, hread, fun hs => hval ?_⟩
  have hget := hs.get [1] hkey 0 360 true (by decide)
  rw [hread, hmap] at hget
  exact hget.symm

end MapState

end MysqlProxy
