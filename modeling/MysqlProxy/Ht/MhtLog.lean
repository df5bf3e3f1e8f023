/-
  Where the values of a `MultiHashTable` come from.

  `MhtState` is a table with a LOG of all values that were ever handed to `SetData`, each with its
  key.  The relation `Logged` says of every entry that it has a key that fits, and that what is
  read from it is the non-empty END of a value of the log, written under exactly that key (the end
  only: after an overrun of the block store a chain holds the last piece of its value).

  Two kinds of calls break it, and `Tame` leaves them out:

  * a key of more than 255 bytes, whose length does not fit its field,
  * an empty value that is stored while the block store has a free list: its handle is the first
    FREE block, which some other key will get later.

  In every state of every tame run keys are told apart (`run_keysApart`), and a key with an empty
  value is a key without an entry, which no call on other keys changes (`run_nullIsolated`).
-/
import MysqlProxy.Ht.MhtMap

namespace MysqlProxy

/-- The calls. -/
inductive MhtOp where
  | setData (now : Nat) (k data : List UInt8) (evict : Bool)
  | getData (now : Nat) (k : List UInt8) (n : Nat) (upd : Bool)
  | eraseData (k : List UInt8)
  | get (it : Nat)

/-- A table and the values that were handed to it, with their keys. -/
structure MhtState where
  table : MultiHashTable
  log : List (List UInt8 × List UInt8)

namespace MhtOp

/-- The key of a call is at most 255 bytes long. -/
def ShortKey : MhtOp → Prop
  | .setData _ k _ _ => k.length ≤ 255
  | .getData _ k _ _ => k.length ≤ 255
  | .eraseData k => k.length ≤ 255
  | .get _ => True

/-- A call that does not write key `k`. -/
def Spares (k : List UInt8) : MhtOp → Prop
  | .setData _ k' _ _ => k' ≠ k
  | .eraseData k' => k' ≠ k
  | _ => True

/-- Keys that fit a node, iterators in range. -/
def Legal (t : MultiHashTable) : MhtOp → Prop
  | .setData _ k _ _ => 1 ≤ k.length ∧ k.length ≤ t.getMaxKeyLen
  | .getData _ k _ _ => 1 ≤ k.length ∧ k.length ≤ t.getMaxKeyLen
  | .eraseData k => 1 ≤ k.length ∧ k.length ≤ t.getMaxKeyLen
  | .get it => it < t.ddwHashNodeNum

/-- An empty value is stored only where the block store has no block to hand out for it. -/
def NullSafe (t : MultiHashTable) : MhtOp → Prop
  | .setData _ k data evict => data = [] → t.NullSafe k evict
  | _ => True

instance (t : MultiHashTable) (op : MhtOp) : Decidable (op.Legal t ∧ op.ShortKey) :=
  match op with
  | .setData _ k _ _ =>
    inferInstanceAs (Decidable ((1 ≤ k.length ∧ k.length ≤ t.getMaxKeyLen) ∧ k.length ≤ 255))
  | .getData _ k _ _ =>
    inferInstanceAs (Decidable ((1 ≤ k.length ∧ k.length ≤ t.getMaxKeyLen) ∧ k.length ≤ 255))
  | .eraseData k =>
    inferInstanceAs (Decidable ((1 ≤ k.length ∧ k.length ≤ t.getMaxKeyLen) ∧ k.length ≤ 255))
  | .get it => inferInstanceAs (Decidable (it < t.ddwHashNodeNum ∧ True))

/-- Short keys, and no free block for an empty value. -/
def Tame (t : MultiHashTable) (op : MhtOp) : Prop := op.ShortKey ∧ op.NullSafe t

end MhtOp

namespace MhtState

open MultiHashTable

/-- One call. -/
def exec (s : MhtState) : MhtOp → Option MhtState
  | .setData now k data evict =>
    match s.table.setData now k data evict with
    | none => none
    | some (_, t) => some ⟨t, (k, data) :: s.log⟩
  | .getData now k n upd => some ⟨(s.table.getData now k n upd).table, s.log⟩
  | .eraseData k => some ⟨(s.table.eraseData k).2, s.log⟩
  | .get it => some ⟨(s.table.get it).2, s.log⟩

/-- One legal call that also meets `allowed`. -/
def Step (allowed : MultiHashTable → MhtOp → Prop) (s s' : MhtState) : Prop :=
  ∃ op, MhtOp.Legal s.table op ∧ allowed s.table op ∧ s.exec op = some s'

theorem Step.mono {allowed allowed' : MultiHashTable → MhtOp → Prop} {s s' : MhtState}
    (h : ∀ t op, allowed t op → allowed' t op) (hs : Step allowed s s') : Step allowed' s s' := by
  obtain ⟨op, hl, ha, heq⟩ := hs
  exact ⟨op, hl, h _ op ha, heq⟩

/-- A run that is evaluated. -/
theorem run_of_execs {allowed : MultiHashTable → MhtOp → Prop}
    [∀ (s : MhtState) op, Decidable (MhtOp.Legal s.table op ∧ allowed s.table op)] {ops : List MhtOp}
    {s s' : MhtState}
    (h : execs exec (fun s op => MhtOp.Legal s.table op ∧ allowed s.table op) ops s = some s') :
    Relation.ReflTransGen (Step allowed) s s' := by
  refine Relation.ReflTransGen.mono ?_ _ _ (execs_run h)
  rintro _ _ ⟨op, ha, heq⟩
  exact ⟨op, ha.1, ha.2, heq⟩

/-! ## The relation -/

/-- What is read from node `p` is the end of a value that was written under `k`. -/
def FromLog (s : MhtState) (k : List UInt8) (p : Nat) : Prop :=
  ∃ v d, (k, v) ∈ s.log ∧ d <:+ v ∧ d ≠ [] ∧
    ∀ n, s.table.readNode p n = MapState.reading s.table.lt d n

/-- Every entry has a key that fits and comes from the log. -/
structure Logged (s : MhtState) : Prop where
  inv : Inv s.table
  entry : ∀ k p, s.table.Has k p → s.table.ValidKey k ∧ s.FromLog k p

section Entries

variable {t t' : MultiHashTable} {log : List (List UInt8 × List UInt8)} {k v : List UInt8} {p : Nat}

/-- An entry that reads as before still comes from the log. -/
theorem FromLog.keep {w : List UInt8 × List UInt8} (h : FromLog ⟨t, log⟩ k p)
    (hread : ∀ n, t'.readNode p n = t.readNode p n)
    (hsize : t'.lt.ddwBlockSize = t.lt.ddwBlockSize) : FromLog ⟨t', w :: log⟩ k p := by
  obtain ⟨v, d, hmem, hsuf, hne, hd⟩ := h
  refine ⟨v, d, List.mem_cons_of_mem w hmem, hsuf, hne, fun n => ?_⟩
  rw [hread n, hd n]
  exact (MapState.reading_congr hsize d n).symm

/-- The log does not matter to a table that has only forgotten. -/
theorem Logged.forgets (h : Logged ⟨t, log⟩) (hinv : Inv t') (hf : Forgets t t') :
    Logged ⟨t', log⟩ := by
  refine ⟨hinv, fun k p hp => ?_⟩
  obtain ⟨hp0, hread⟩ := hf.has hp
  obtain ⟨hk, v, d, hmem, hsuf, hne, hd⟩ := h.entry k p hp0
  refine ⟨hf.toSameShape.validKey.mpr hk, v, d, hmem, hsuf, hne, fun n => ?_⟩
  rw [hread n, hd n]
  exact (MapState.reading_congr hf.blockSize d n).symm

end Entries

/-! ## Steps -/

section Steps

variable {s s' : MhtState}

/-- What `EraseData`, `GetData` and `Get` leave behind: less. -/
theorem eraseData_forgets {t : MultiHashTable} {k : List UInt8} (h : Inv t) (hk : t.ValidKey k) :
    Forgets t (t.eraseData k).2 := by
  rcases MapState.eraseData_cases h hk with ⟨p, hp, heq⟩ | ⟨-, heq⟩
  · rw [heq]
    exact (eraseNode_spec h hp.1).2.1
  · rw [heq]
    exact Forgets.refl t

theorem getData_forgets {t : MultiHashTable} {k : List UInt8} (h : Inv t) (hk : t.ValidKey k)
    (now n : Nat) (upd : Bool) : Forgets t (t.getData now k n upd).table := by
  rcases Nat.lt_or_ge n 1 with hn | hn
  · rw [(getData_small hn now upd).2]
    exact Forgets.refl t
  by_cases hex : ∃ p, t.Has k p
  · obtain ⟨p, hp⟩ := hex
    rw [(getData_has h hk hn hp now upd).2]
    cases upd with
    | false => exact Forgets.refl t
    | true => exact (touch_spec h now).2.1
  · rw [(getData_absent h hk hn (fun p hp => hex ⟨p, hp⟩) now upd).2]
    exact Forgets.refl t

theorem get_forgets {t : MultiHashTable} (h : Inv t) {it : Nat} (hit : it < t.ddwHashNodeNum) :
    Forgets t (t.get it).2 := by
  rw [MultiHashTable.get]
  split
  · exact Forgets.refl t
  · split
    · exact (wipeNode_spec h hit).2.1
    · exact Forgets.refl t

/-- A node that holds a value reads as that value. -/
theorem readNode_holds {t : MultiHashTable} (h : Inv t) {p : Nat} {d : List UInt8}
    (hd : t.lt.Holds (t.nodeLtPos p) d) (n : Nat) : t.readNode p n = MapState.reading t.lt d n := by
  rw [readNode, hd.getData h.lt.toGeometry, MapState.reading]
  split_ifs <;> rfl

/-- `SetData` keeps the relation, and adds to the log what it was given. -/
theorem setData_logged {now : Nat} {k data : List UInt8} {evict : Bool} (h : s.Logged)
    (hk : s.table.ValidKey k) (hsafe : data = [] → s.table.NullSafe k evict)
    {r : Except MhtError Unit} {t' : MultiHashTable}
    (hend : SetEnds s.table now k data evict r t') : Logged ⟨t', (k, data) :: s.log⟩ := by
  have hkeeps := hend.setKeeps h.inv hk hsafe
  have hsame : SameKey s.table t' k → ∀ p, t'.Has k p → FromLog ⟨t', (k, data) :: s.log⟩ k p := by
    intro hsame p hp
    have hp0 := hsame.2 p hp
    exact (h.entry k p hp0).2.keep (hsame.1 p hp0).2 hkeeps.blockSize
  have hown : ∀ p, t'.Has k p → FromLog ⟨t', (k, data) :: s.log⟩ k p := by
    cases r with
    | error e => exact hsame (setEnds_error h.inv hk hend).2
    | ok u =>
      obtain ⟨-, w, t1, t2, -, -, -, hcase⟩ := setEnds_written h.inv hk hsafe hend
      rcases hcase with ⟨-, hst⟩ | ⟨-, hno⟩ | ⟨-, -, -, hkey⟩
      · intro p hp
        obtain ⟨d, hsuf, hne, hholds⟩ := hst.piece
        obtain rfl := hkeeps.inv.has_unique hp hst.has
        exact ⟨data, d, List.mem_cons_self, hsuf, hne, readNode_holds hkeeps.inv hholds⟩
      · exact fun p hp => absurd hp (hno p)
      · exact hsame hkey
  refine ⟨hkeeps.inv, fun k' p hp => ?_⟩
  by_cases hkk : k' = k
  · subst hkk
    exact ⟨hkeeps.shape.validKey.mpr hk, hown p hp⟩
  · obtain ⟨hp0, hread⟩ := hkeeps.others k' p hkk hp
    obtain ⟨hk', hfrom⟩ := h.entry k' p hp0
    exact ⟨hkeeps.shape.validKey.mpr hk', hfrom.keep hread hkeeps.blockSize⟩

theorem validKey_of_legal {t : MultiHashTable} {k : List UInt8}
    (hl : 1 ≤ k.length ∧ k.length ≤ t.getMaxKeyLen) (hs : k.length ≤ 255) : t.ValidKey k :=
  ⟨hl.1, hs, hl.2⟩

/-- **One call keeps the relation.** -/
theorem step_logged (h : s.Logged) (hs : Step MhtOp.Tame s s') : s'.Logged := by
  obtain ⟨op, hl, ⟨hshort, hnull⟩, heq⟩ := hs
  cases op with
  | setData now k data evict =>
    have hk : s.table.ValidKey k := validKey_of_legal hl hshort
    obtain ⟨r, t', hset, hend⟩ := setData_ends h.inv hk data now evict
    simp only [exec, hset, Option.some.injEq] at heq
    subst heq
    exact setData_logged h hk hnull hend
  | getData now k n upd =>
    obtain rfl := (Option.some.inj heq)
    exact h.forgets (getData_inv h.inv now k n upd)
      (getData_forgets h.inv (validKey_of_legal hl hshort) now n upd)
  | eraseData k =>
    obtain rfl := (Option.some.inj heq)
    exact h.forgets (eraseData_inv h.inv k) (eraseData_forgets h.inv (validKey_of_legal hl hshort))
  | get it =>
    obtain rfl := (Option.some.inj heq)
    exact h.forgets (get_inv h.inv hl) (get_forgets h.inv hl)

/-- What every call keeps: the shape of the table, and the absence of the keys it does not write. -/
theorem step_keeps {allowed : MultiHashTable → MhtOp → Prop} (h : s.Logged)
    (hallowed : ∀ t op, allowed t op → op.Tame t) (hs : Step allowed s s') :
    SameShape s.table s'.table ∧ s'.table.lt.ddwBlockSize = s.table.lt.ddwBlockSize ∧
      ∀ k, (∀ t op, allowed t op → op.Spares k) → ∀ p, s'.table.Has k p → s.table.Has k p := by
  obtain ⟨op, hl, ha, heq⟩ := hs
  obtain ⟨hshort, hnull⟩ := hallowed _ op ha
  have hforgets : Forgets s.table s'.table → SameShape s.table s'.table ∧
      s'.table.lt.ddwBlockSize = s.table.lt.ddwBlockSize ∧
      ∀ k, (∀ t op, allowed t op → op.Spares k) → ∀ p, s'.table.Has k p → s.table.Has k p :=
    fun hf => ⟨hf.toSameShape, hf.blockSize, fun _ _ _ hp => (hf.has hp).1⟩
  cases op with
  | setData now k data evict =>
    have hk : s.table.ValidKey k := validKey_of_legal hl hshort
    obtain ⟨r, t', hset, hend⟩ := setData_ends h.inv hk data now evict
    simp only [exec, hset, Option.some.injEq] at heq
    subst heq
    have hkeeps := hend.setKeeps h.inv hk hnull
    refine ⟨hkeeps.shape, hkeeps.blockSize, fun k' hspares p hp => ?_⟩
    exact (hkeeps.others k' p (Ne.symm (hspares _ _ ha)) hp).1
  | getData now k n upd =>
    obtain rfl := Option.some.inj heq
    exact hforgets (getData_forgets h.inv (validKey_of_legal hl hshort) now n upd)
  | eraseData k =>
    obtain rfl := Option.some.inj heq
    exact hforgets (eraseData_forgets h.inv (validKey_of_legal hl hshort))
  | get it =>
    obtain rfl := Option.some.inj heq
    exact hforgets (get_forgets h.inv hl)

/-- The shape of the table is the same all along. -/
theorem run_shape (h : s.Logged) (hrun : Relation.ReflTransGen (Step MhtOp.Tame) s s') :
    SameShape s.table s'.table := by
  induction hrun with
  | refl => exact SameShape.refl s.table
  | tail hrun hs ih =>
    exact ih.trans (step_keeps (run_invariant hrun h step_logged) (fun _ _ ha => ha) hs).1

/-- A new table has no entries. -/
theorem created_logged {t : MultiHashTable} (h : Created t) : Logged ⟨t, []⟩ :=
  ⟨created_inv h, fun k p hp => absurd hp (MapState.created_absent h k p)⟩

theorem run_logged {t : MultiHashTable} (h : Created t)
    (hrun : Relation.ReflTransGen (Step MhtOp.Tame) ⟨t, []⟩ s) : s.Logged :=
  run_invariant hrun (created_logged h) step_logged

end Steps

/-! ## Keys are told apart -/

/-- What is read under a key was written under that key. -/
structure KeysApart (s : MhtState) : Prop where
  /-- `GetData` returns nothing, or the end of a value of its own key. -/
  get : ∀ k, s.table.ValidKey k → ∀ now n upd d, (s.table.getData now k n upd).result = .ok d →
    d = [] ∨ ∃ v, (k, v) ∈ s.log ∧ d <:+ v
  /-- `Get` at an entry reports the key under which the value it reports was written, and this is
      what `GetData` returns for that key. -/
  iter : ∀ it, it < s.table.ddwHashNodeNum → s.table.isHnodeEmpty it = false → ∀ m t',
    s.table.get it = (.ok m, t') → s.table.ValidKey m.key ∧
      (∃ v, (m.key, v) ∈ s.log ∧ m.data <:+ v) ∧ m.data ≠ [] ∧
      ∀ now upd, (s.table.getData now m.key HASH_MAX_DATA_LENGTH upd).result = .ok m.data

section Apart

variable {s : MhtState} {k : List UInt8} {p : Nat}

/-- What a read can return for a value. -/
theorem reading_ok {lt : LinkTable} {v d : List UInt8} {n : Nat}
    (h : MapState.reading lt v n = .ok d) : d = v := by
  unfold MapState.reading at h
  split_ifs at h
  exact (Except.ok.inj h).symm

/-- A read of an entry of the log. -/
theorem FromLog.read {n : Nat} {d : List UInt8} (h : s.FromLog k p)
    (hread : s.table.readNode p n = .ok d) : (∃ v, (k, v) ∈ s.log ∧ d <:+ v) ∧ d ≠ [] := by
  obtain ⟨v, d', hmem, hsuf, hne, hd⟩ := h
  rw [hd n] at hread
  obtain rfl := reading_ok hread
  exact ⟨⟨v, hmem, hsuf⟩, hne⟩

/-- `Get` at a node, when it succeeds. -/
theorem get_eq_ok {t t' : MultiHashTable} {it : Nat} {m : MhtData} (h : t.get it = (.ok m, t')) :
    m.key = t.keyOf it ∧ t.readNode it HASH_MAX_DATA_LENGTH = .ok m.data ∧ t' = t := by
  rw [MultiHashTable.get] at h
  rw [readNode]
  cases hg : t.lt.getData (t.nodeLtPos it) HASH_MAX_DATA_LENGTH with
  | ok d =>
    rw [hg] at h
    obtain ⟨hm, rfl⟩ := Prod.mk.inj h
    obtain rfl := Except.ok.inj hm
    exact ⟨rfl, rfl, rfl⟩
  | error e =>
    rw [hg] at h
    dsimp only at h
    split_ifs at h
    · simp at h
    · simp at h

theorem Logged.keysApart (h : s.Logged) : s.KeysApart := by
  constructor
  · intro k hk now n upd d hget
    rcases Nat.lt_or_ge n 1 with hn | hn
    · rw [(getData_small hn now upd).1] at hget
      simp at hget
    by_cases hex : ∃ p, s.table.Has k p
    · obtain ⟨p, hp⟩ := hex
      rw [(getData_has h.inv hk hn hp now upd).1] at hget
      exact .inr ((h.entry k p hp).2.read hget).1
    · rw [(getData_absent h.inv hk hn (fun p hp => hex ⟨p, hp⟩) now upd).1] at hget
      exact .inl (Except.ok.inj hget).symm
  · intro it hit hne m t' hget
    obtain ⟨hkey, hread, -⟩ := get_eq_ok hget
    have hp : s.table.Has m.key it := ⟨hit, by simpa [isHnodeEmpty] using hne, hkey.symm⟩
    obtain ⟨hk, hfrom⟩ := h.entry m.key it hp
    obtain ⟨hlog, hdata⟩ := hfrom.read hread
    refine ⟨hk, hlog, hdata, fun now upd => ?_⟩
    rw [(getData_has h.inv hk (by decide) hp now upd).1, hread]

/-- **Keys are told apart** in every state of every tame run. -/
theorem run_keysApart {t : MultiHashTable} (h : Created t)
    (hrun : Relation.ReflTransGen (Step MhtOp.Tame) ⟨t, []⟩ s) : s.KeysApart := by
  exact (run_logged h hrun).keysApart

/-- A value that is not empty may be written under any key that fits. -/
theorem write_step (allowed : MultiHashTable → MhtOp → Prop) (s : MhtState) (k data : List UInt8)
    {r : Except MhtError Unit} (hl : 1 ≤ k.length ∧ k.length ≤ s.table.getMaxKeyLen)
    (ha : allowed s.table (.setData 0 k data false))
    (hok : (s.table.setData 0 k data false).map Prod.fst = some r) :
    ∃ t', s.table.setData 0 k data false = some (r, t') ∧
      Step allowed s ⟨t', (k, data) :: s.log⟩ := by
  rcases heq : s.table.setData 0 k data false with _ | ⟨r', t'⟩
  · rw [heq] at hok
    simp at hok
  · obtain rfl : r' = r := by rw [heq] at hok; simpa using hok
    exact ⟨t', rfl, .setData 0 k data false, hl, ha, by simp only [exec, heq]⟩

/-- One write into `smallTable`: all calls of this run are tame. -/
theorem run_keysApart_oneWrite : ∃ t', smallTable.setData 0 [1] [9] false = some (.ok (), t') ∧
    KeysApart ⟨t', [([1], [9])]⟩ := by
  have hshort : MhtOp.ShortKey (.setData 0 [1] [9] false) := show 1 ≤ 255 by decide
  obtain ⟨t', hset, hstep⟩ := write_step MhtOp.Tame ⟨smallTable, []⟩ [1] [9] (r := .ok ())
    (by decide) ⟨hshort, fun h => absurd h (by decide)⟩ (by decide +kernel)
  exact ⟨t', hset, run_keysApart smallTable_created (.single hstep)⟩

end Apart

/-- Keys of up to 256 bytes, in rows of 47 and 29 nodes. -/
def longKeyTable : MultiHashTable :=
  { smallTable with
    ddwHashNodeSize := 272
    auRowsNodeNum := fun i => [47, 29].getD i 0
    auRowsStartNode := fun i => ([47, 29].take i).sum
    lt := { LtState.fourBlocks with
      ddwAllBlockCount := 16
      ddwFreeBlockCount := 16
      ddwBlockSize := 256
      blocks := fun _ => ⟨0, 0, List.replicate 248 0⟩ } }

theorem init_longKeyTable :
    initFromBuffer 2124000 256 2 1 256 defaultHashFunc false = .ok longKeyTable := by
  have hratio : nodeNumRatio2MemSizeRatio 272 256 1 = 1 := by decide
  have hnum : evaluateHashNodeNum 2124000 272 1 = 77 := by decide +kernel
  have hrows : calcNodeNumForEachRow 2 77 = [47, 29] := by decide +kernel
  have hsize : evaluateHashNodeSize 256 = 272 := rfl
  rw [initFromBuffer, if_neg (by decide)]
  simp only [hsize, hratio, hnum, hrows]
  rfl

theorem longKeyTable_created : Created longKeyTable := by
  refine ⟨_, _, _, _, _, _, _, init_longKeyTable, ?_, by decide, by decide⟩
  intro i hi
  have : i = 0 ∨ i = 1 := by
    have : i < 2 := hi
    omega
  rcases this with rfl | rfl <;> decide

/-- Two keys of 256 bytes with the same hash. -/
def longKey : List UInt8 := List.replicate 254 0 ++ [0, 131]
def otherKey : List UInt8 := List.replicate 254 0 ++ [1, 0]

/-- **The defect.**  A key of 256 bytes is stored with the length `0`.  What is written under
    `longKey` is read under `otherKey`, and `Get` reports a key without bytes. -/
theorem long_keys_not_apart : Created longKeyTable ∧ longKeyTable.hashfunc = defaultHashFunc ∧
    longKey ≠ otherKey ∧ longKey.length ≤ longKeyTable.getMaxKeyLen ∧
    otherKey.length ≤ longKeyTable.getMaxKeyLen ∧
    ∃ s, Relation.ReflTransGen (Step fun _ _ => True) ⟨longKeyTable, []⟩ s ∧
      s.log = [(longKey, [7])] ∧ (s.table.getData 0 otherKey 248 true).result = .ok [7] ∧
      ∃ it m, s.table.next none = some it ∧ (s.table.get it).1 = .ok m ∧ m.key = [] ∧
        m.data = [7] := by
  have hset : (longKeyTable.setData 0 longKey [7] false).map Prod.fst = some (.ok ()) := by
    decide +kernel
  obtain ⟨t', heq, hstep⟩ := write_step (fun _ _ => True) ⟨longKeyTable, []⟩ longKey [7]
    (by decide +kernel) trivial hset
  have hobs : (longKeyTable.setData 0 longKey [7] false).map (fun r =>
      ((r.2.getData 0 otherKey 248 true).result, r.2.next none,
        (r.2.get 37).1.toOption.map fun m => (m.key, m.data))) =
      some (.ok [7], some 37, some ([], [7])) := by decide +kernel
  rw [heq] at hobs
  simp only [Option.map_some, Option.some.injEq, Prod.mk.injEq] at hobs
  obtain ⟨hread, hnext, hget⟩ := hobs
  refine ⟨longKeyTable_created, rfl, by decide +kernel, by decide +kernel, by decide +kernel,
    _, .single hstep, rfl, hread, 37, ?_⟩
  cases hm : (t'.get 37).1 with
  | error e =>
    rw [hm] at hget
    simp [Except.toOption] at hget
  | ok m =>
    rw [hm] at hget
    obtain ⟨hkey, hdata⟩ := Prod.mk.inj (Option.some.inj hget)
    exact ⟨m, hnext, rfl, hkey, hdata⟩

/-! ## Empty values -/

/-- A key with an empty value, and what erasing or overwriting it does to the others: nothing, but
    for an eviction. -/
structure NullIsolated (t : MultiHashTable) (k : List UInt8) : Prop where
  erase : ∀ k', t.ValidKey k' → k' ≠ k → ReadsAlike t (t.eraseData k).2 k'
  overwrite : ∀ now data r t', (data = [] → t.NullSafe k false) →
    t.setData now k data false = some (r, t') → ∀ k', t.ValidKey k' → k' ≠ k → ReadsAlike t t' k'
  evict : ∀ now data r t', (data = [] → t.NullSafe k true) →
    t.setData now k data true = some (r, t') → ∀ k', t.ValidKey k' → k' ≠ k →
    ReadsAlike t t' k' ∨ NotFound t' k'

section Null

variable {s s' : MhtState} {t : MultiHashTable} {k : List UInt8}

theorem eraseData_sameKey {k' : List UInt8} (h : Inv t) (hk : t.ValidKey k) (hkk : k' ≠ k) :
    SameKey t (t.eraseData k).2 k' := by
  rcases MapState.eraseData_cases h hk with ⟨p, hp, heq⟩ | ⟨-, heq⟩
  · rw [heq]
    obtain ⟨-, hf, -, -, hkeep⟩ := eraseNode_spec h hp.1
    refine MapState.sameKey_of_keeps hf fun q hq => hkeep q hq.1 ?_
    rintro rfl
    exact hkk (hq.2.2.symm.trans hp.2.2)
  · rw [heq]
    exact ⟨fun p hp => ⟨hp, fun _ => rfl⟩, fun p hp => hp⟩

theorem nullIsolated (h : Inv t) (hk : t.ValidKey k) : NullIsolated t k := by
  constructor
  · intro k' hk' hkk
    exact (eraseData_sameKey h hk hkk).readsAlike h (eraseData_inv h k)
      (eraseData_forgets h hk).toSameShape hk'
  · intro now data r t' hsafe heq k' hk' hkk
    obtain ⟨r1, t1, heq1, hend⟩ := setData_ends h hk data now false
    obtain ⟨rfl, rfl⟩ : r1 = r ∧ t1 = t' := by rw [heq1] at heq; simpa using heq
    have hkeeps := hend.setKeeps h hk hsafe
    exact (MapState.setEnds_sameKey h hk hkeeps hend hkk).readsAlike h hkeeps.inv hkeeps.shape hk'
  · intro now data r t' hsafe heq k' hk' hkk
    obtain ⟨r1, t1, heq1, hend⟩ := setData_ends h hk data now true
    obtain ⟨rfl, rfl⟩ : r1 = r ∧ t1 = t' := by rw [heq1] at heq; simpa using heq
    exact (hend.setKeeps h hk hsafe).readsAlike_or_notFound h hk' hkk

/-- An empty value that is stored without eviction makes its key absent. -/
theorem setData_null_absent {now : Nat} {t' : MultiHashTable} (h : Inv t) (hk : t.ValidKey k)
    (hsafe : t.NullSafe k false) (heq : t.setData now k [] false = some (.ok (), t')) :
    ∀ p, ¬ t'.Has k p := by
  obtain ⟨r, t1, heq1, hend⟩ := setData_ends h hk [] now false
  obtain ⟨rfl, rfl⟩ : r = .ok () ∧ t1 = t' := by rw [heq1] at heq; simpa using heq
  obtain ⟨-, w, t2, t3, -, -, -, hcase⟩ := setEnds_written h hk (fun _ => hsafe) hend
  rcases hcase with ⟨hne, -⟩ | ⟨-, hno⟩ | ⟨-, hev, -⟩
  · exact absurd rfl hne
  · exact hno
  · simp at hev

/-- Key `k` has no entry. -/
structure Absent (s : MhtState) (k : List UInt8) : Prop where
  logged : s.Logged
  valid : s.table.ValidKey k
  absent : ∀ p, ¬ s.table.Has k p

/-- No call on other keys gives a key an entry. -/
theorem step_absent (h : s.Absent k) (hs : Step (fun t op => op.Tame t ∧ op.Spares k) s s') :
    s'.Absent k := by
  obtain ⟨hshape, -, hspare⟩ := step_keeps h.logged (fun _ _ ha => ha.1) hs
  refine ⟨step_logged h.logged (hs.mono fun _ _ ha => ha.1), hshape.validKey.mpr h.valid, ?_⟩
  exact fun p hp => h.absent p (hspare k (fun _ _ ha => ha.2) p hp)

/-- **Empty values are isolated**, in every tame run: the key reads as empty until it is written
    again, and erasing or overwriting it at any later time changes no other key. -/
theorem run_nullIsolated {t t' : MultiHashTable} {now : Nat} (h : Created t)
    (hrun : Relation.ReflTransGen (Step MhtOp.Tame) ⟨t, []⟩ s) (hk : s.table.ValidKey k)
    (hsafe : s.table.NullSafe k false)
    (hset : s.table.setData now k [] false = some (.ok (), t')) :
    (∀ s2, Relation.ReflTransGen (Step fun t op => op.Tame t ∧ op.Spares k)
        ⟨t', (k, []) :: s.log⟩ s2 → NotFound s2.table k) ∧
      ∀ s2, Relation.ReflTransGen (Step MhtOp.Tame) ⟨t', (k, []) :: s.log⟩ s2 →
        NullIsolated s2.table k := by
  have hs := run_logged h hrun
  obtain ⟨r, t1, heq1, hend⟩ := setData_ends hs.inv hk [] now false
  obtain ⟨rfl, rfl⟩ : r = .ok () ∧ t1 = t' := by rw [heq1] at hset; simpa using hset
  have hlog : Logged ⟨t1, (k, []) :: s.log⟩ := setData_logged hs hk (fun _ => hsafe) hend
  have hk1 : t1.ValidKey k := (hend.setKeeps hs.inv hk fun _ => hsafe).shape.validKey.mpr hk
  have hno := setData_null_absent hs.inv hk hsafe heq1
  constructor
  · intro s2 hrun2
    have hinv2 := run_invariant hrun2 ⟨hlog, hk1, hno⟩ step_absent
    exact notFound_of_absent hinv2.logged.inv hinv2.valid hinv2.absent
  · intro s2 hrun2
    have hlog2 := run_invariant hrun2 hlog step_logged
    have hk2 : s2.table.ValidKey k := (run_shape hlog hrun2).validKey.mpr hk1
    exact nullIsolated hlog2.inv hk2

/-- In a new table the free list is empty: the empty value is stored as no entry. -/
theorem run_nullIsolated_small : ∃ t', smallTable.setData 0 [1] [] false = some (.ok (), t') ∧
    NotFound t' [1] ∧ NullIsolated t' [1] := by
  have hplace : smallTable.place [1] false = (.ok ⟨1, true, 0, none⟩, smallTable) := rfl
  have hsafe : smallTable.NullSafe [1] false := by
    intro w t1 t2 hp _ heq
    rw [heq rfl]
    rw [hplace] at hp
    rw [← (Prod.mk.inj hp).2]
    decide
  have hshort : MhtOp.ShortKey (.setData 0 [1] [] false) := show 1 ≤ 255 by decide
  obtain ⟨t', hset, -⟩ := write_step MhtOp.Tame ⟨smallTable, []⟩ [1] [] (r := .ok ())
    (by decide) ⟨hshort, fun _ => hsafe⟩ (by decide +kernel)
  have hiso := run_nullIsolated (s := ⟨smallTable, []⟩) (k := [1]) smallTable_created .refl
    (by decide) hsafe hset
  exact ⟨t', hset, hiso.1 ⟨t', _⟩ .refl, hiso.2 ⟨t', _⟩ .refl⟩

end Null

/-- `smallTable` with 113 usable blocks. -/
def bigTable : MultiHashTable :=
  { smallTable with
    lt := { smallTable.lt with ddwAllBlockCount := 114, ddwFreeBlockCount := 114 } }

theorem init_bigTable : initFromBuffer 2133000 239 2 1 128 defaultHashFunc false = .ok bigTable := by
  have hratio : nodeNumRatio2MemSizeRatio 255 128 1 = 1 := by decide
  have hnum : evaluateHashNodeNum 2133000 255 1 = 82 := by decide +kernel
  have hrows : calcNodeNumForEachRow 2 82 = [53, 23] := by decide +kernel
  have hsize : evaluateHashNodeSize 239 = 255 := rfl
  rw [initFromBuffer, if_neg (by decide)]
  simp only [hsize, hratio, hnum, hrows]
  rfl

theorem bigTable_created : Created bigTable := by
  refine ⟨_, _, _, _, _, _, _, init_bigTable, ?_, by decide, by decide⟩
  intro i hi
  have : i = 0 ∨ i = 1 := by
    have : i < 2 := hi
    omega
  rcases this with rfl | rfl <;> decide

/-- Writing the same value over and over fills the recycle ring, and the last write puts the first
    block on the free list. -/
def overwrites : List MhtOp := List.replicate 102 (.setData 0 [1] [7] false)

/-- **The defect.**  With a free list the empty value of `02` gets the first free block as its
    handle; the next key that is written gets the same block, and `02` reads as its value. -/
theorem null_value_shared : ∃ s t' s2,
    Relation.ReflTransGen (Step fun _ op => op.ShortKey) ⟨bigTable, []⟩ s ∧
    s.table.ValidKey [2] ∧ s.table.setData 0 [2] [] false = some (.ok (), t') ∧
    Step (fun _ op => op.ShortKey ∧ op.Spares [2]) ⟨t', ([2], []) :: s.log⟩ s2 ∧
    (s2.table.getData 0 [2] 120 true).result = .ok [9] ∧ ¬ NotFound s2.table [2] := by
  have hobs : (execs exec (fun s op => op.Legal s.table ∧ op.ShortKey) overwrites ⟨bigTable, []⟩).bind
      (fun s => (s.table.setData 0 [2] [] false).bind fun r =>
        (r.2.setData 0 [3] [9] false).map fun r2 =>
          (r.1, r2.1, (r2.2.getData 0 [2] 120 true).result, s.table.getMaxKeyLen,
            r.2.getMaxKeyLen)) = some (.ok (), .ok (), .ok [9], 239, 239) := by decide +kernel
  obtain ⟨s, hrun, hobs⟩ := Option.bind_eq_some_iff.mp hobs
  obtain ⟨⟨r, t'⟩, hset, hobs⟩ := Option.bind_eq_some_iff.mp hobs
  obtain ⟨⟨r2, t2⟩, hset2, hobs⟩ := Option.map_eq_some_iff.mp hobs
  simp only [Prod.mk.injEq] at hobs
  obtain ⟨rfl, -, hread, hmax, hmax'⟩ := hobs
  have hstep : Step (fun _ op => op.ShortKey ∧ op.Spares [2]) ⟨t', ([2], []) :: s.log⟩
      ⟨t2, ([3], [9]) :: ([2], []) :: s.log⟩ := by
    refine ⟨.setData 0 [3] [9] false, ⟨by decide, ?_⟩, ⟨show 1 ≤ 255 by decide, ?_⟩, ?_⟩
    · show 1 ≤ t'.getMaxKeyLen
      rw [hmax']
      decide
    · show ([3] : List UInt8) ≠ [2]
      decide
    · simp only [exec, hset2]
  refine ⟨s, t', _, run_of_execs hrun, ⟨by decide, by decide, ?_⟩, hset, hstep, hread, fun hnf => ?_⟩
  · rw [hmax]
    decide
  · rw [hnf 0 120 true (by decide)] at hread
    simp at hread

end MhtState

end MysqlProxy
