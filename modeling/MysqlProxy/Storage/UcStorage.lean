/-
  The storage of the proxy (`UcStorage` in `storage.h`, `storage.cc`).

  A storage is a key and a tree, on a table that all threads and processes share.  `Read` takes the
  tree from the bytes under the key, `Write` puts the bytes of the tree there.

  What a reader may rely on is less than a map: `SetData` evicts other keys, and it may give up a
  store and still return `0` (`Skips`), so that the key keeps its older value.  But nothing is made
  up.  `Mirrors t m`: the readings of the table are entries of the map `m`.

  * `Mirrors.write`, `Mirrors.forgets`: a write makes its entry in the map or does not, and whatever
    else happens to the table takes nothing but entries away.
  * `run_reads`: in every run of the storages, a tree that `Read` returns was built from the bytes that
    some `Write` stored under that key, and no `Erase` of the key came after it.

  Modelling choices.
  * The tables of a process are told apart by `storage_idx`; here the table is an argument.
  * Who frees a tree is left out.  `Delete` leaves the key as it is: `knv_key_t` has no `FreeDynData`.
-/
import MysqlProxy.Knv.Encoded
import MysqlProxy.Lib.CString
import MysqlProxy.Lib.Run
import MysqlProxy.Storage.ReadCache

namespace MysqlProxy

open MultiHashTable

structure UcStorage where
  key : List UInt8
  auto_delete : Bool
  tree : Option KnvNode
  errmsg : String
  tAccessTime : Nat

/-- What `ReadCache` meets: the times that `GetData` asks for, and whether the buffers of the thread
    are there. -/
structure ReadCall where
  now : Nat
  now' : Nat
  small_buffer : Bool
  huge_buffer : Bool

namespace UcStorage

/-- `UcStorage(fd, k)`. -/
def new (key : List UInt8) : UcStorage := ⟨key, true, none, "", 0⟩

/-- `Attach`: the key is the key of the tree. -/
def attach (st : UcStorage) (tr : KnvNode) (auto_del : Bool) : UcStorage :=
  { st with tree := some tr, key := tr.key.val, auto_delete := auto_del }

/-- `Detach`: the tree, if the storage owns it. -/
def detach (st : UcStorage) : Option KnvNode × UcStorage :=
  if st.auto_delete then (st.tree, { st with auto_delete := false }) else (none, st)

/-- `%02X`. -/
def hexByte (c : UInt8) : String :=
  String.ofList ((print02X c.toNat).map fun d => Char.ofNat d.toNat)

/-- The text for bytes that are no tree: their number and the first ten of them. -/
def notATree (data : List UInt8) (err : String) : String :=
  "Construct KnvNode from data(len=" ++ toString data.length ++ ", data=" ++
    String.intercalate " " ((data.take 10).map hexByte) ++ (if 10 < data.length then "..." else "") ++
    ") failed: " ++ err

/-- `Read`, with the value it returns. -/
def read (st : UcStorage) (t : MultiHashTable) (call : ReadCall) : Int × UcStorage × MultiHashTable :=
  let r := t.readCache call.now call.now' st.key call.small_buffer call.huge_buffer
  let st := { st with tAccessTime := r.access_time.getD st.tAccessTime }
  match r.result with
  | .error e => (-2, { st with errmsg := e.errmsg }, r.table)
  | .ok data =>
    if data = [] then (-1, { st with errmsg := "No such key" }, r.table)
    else
      match KnvNode.newFromData data with
      | .error e => (-3, { st with tree := none, errmsg := notATree data e.errmsg }, r.table)
      | .ok tree => (0, { st with tree := some tree, auto_delete := true }, r.table)

/-- `Write`.  `none` would mean that `SetData` does not return. -/
def write (st : UcStorage) (t : MultiHashTable) (now : Nat) (auto_remove : Bool) :
    Option (Int × UcStorage × MultiHashTable) :=
  match st.tree with
  | none => some (-1, { st with errmsg := "Knv tree is not initialized" }, t)
  | some tree =>
    if tree.tag = 0 then some (-1, { st with errmsg := "Knv tree is not initialized" }, t)
    else
      match tree.serializeString with
      | .error e => some (-2, { st with errmsg := e.errmsg }, t)
      | .ok s =>
        match t.setData now st.key s auto_remove with
        | none => none
        | some (.error e, t) =>
          some (e.code, { st with errmsg := "MultiHashTable set failed: " ++ e.errmsg }, t)
        | some (.ok _, t) => some (0, st, t)

/-- `Erase`: `1` when the key was there, `0` when not. -/
def erase (st : UcStorage) (t : MultiHashTable) : Int × UcStorage × MultiHashTable :=
  match t.eraseData st.key with
  | (.error e, t) => (e.code, { st with errmsg := "MultiHashTable erase failed: " ++ e.errmsg }, t)
  | (.ok ret, t) => (ret, st, t)

/-- `FixHtBadNode`. -/
def fixHtBadNode (st : UcStorage) (t : MultiHashTable) : Int × MultiHashTable :=
  match t.eraseBadNode st.key with
  | (.error e, t) => (e.code, t)
  | (.ok ret, t) => (ret, t)

end UcStorage

/-! ## The map behind a table -/

/-- What is read under a key is in the map. -/
structure Mirrors (t : MultiHashTable) (m : List UInt8 → Option (List UInt8)) : Prop where
  inv : Inv t
  entry : ∀ k p v, t.ValidKey k → t.Has k p →
    twoReads (t.readNode p SMALL_BUFFER_SIZE) (t.readNode p HUGE_BUFFER_SIZE) = .ok v → m k = some v

/-- Both buffers give the value, if they give one. -/
theorem twoReads_reading {lt : LinkTable} {d v : List UInt8} {n n' : Nat}
    (h : twoReads (MapState.reading lt d n) (MapState.reading lt d n') = .ok v) : v = d := by
  have hone : ∀ n v, MapState.reading lt d n = .ok v → v = d := by
    intro n v hv
    rw [MapState.reading] at hv
    split at hv
    · cases hv
    split at hv
    · cases hv
    · exact (Except.ok.inj hv).symm
  unfold twoReads at h
  split at h
  · rename_i hv
    obtain rfl := Except.ok.inj h
    exact hone n _ hv
  · split at h
    · split at h
      · rename_i hv
        obtain rfl := Except.ok.inj h
        exact hone n' _ hv
      · cases h
    · cases h

section Readers

variable {t : MultiHashTable} {k : List UInt8}

/-- A buffer that is not there makes no difference to what is read. -/
theorem readCache_buffers {now now' : Nat} {small_buffer huge_buffer : Bool} {data : List UInt8}
    (h : (t.readCache now now' k small_buffer huge_buffer).result = .ok data) :
    (t.readCache now now' k true true).result = .ok data := by
  cases small_buffer with
  | false => cases h
  | true =>
    cases huge_buffer with
    | true => exact h
    | false =>
      unfold MultiHashTable.readCache at h ⊢
      rw [if_neg (by decide)] at h ⊢
      dsimp only at h ⊢
      cases hg : (t.getData now k SMALL_BUFFER_SIZE true).result with
      | ok d =>
        rw [hg] at h
        exact h
      | error e =>
        rw [hg] at h
        dsimp only at h
        split at h
        · cases h
        · cases h

/-- A read changes access times only. -/
theorem readCache_forgets (h : Inv t) (hk : t.ValidKey k) (now now' : Nat)
    (small_buffer huge_buffer : Bool) :
    Inv (t.readCache now now' k small_buffer huge_buffer).table ∧
      Forgets t (t.readCache now now' k small_buffer huge_buffer).table := by
  obtain ⟨g, hg⟩ : ∃ g, t.getData now k SMALL_BUFFER_SIZE true = g := ⟨_, rfl⟩
  have hinv : Inv g.table := hg ▸ getData_inv h now k SMALL_BUFFER_SIZE true
  have hf : Forgets t g.table := hg ▸ MhtState.getData_forgets h hk now SMALL_BUFFER_SIZE true
  have hsecond : Inv (g.table.getData now' k HUGE_BUFFER_SIZE true).table ∧
      Forgets t (g.table.getData now' k HUGE_BUFFER_SIZE true).table :=
    ⟨getData_inv hinv _ _ _ _, hf.trans
      (MhtState.getData_forgets hinv (hf.toSameShape.validKey.mpr hk) now' HUGE_BUFFER_SIZE true)⟩
  unfold MultiHashTable.readCache
  split
  · exact ⟨h, Forgets.refl t⟩
  · simp only [hg]
    split
    · exact ⟨hinv, hf⟩
    · split
      · split
        · exact ⟨hinv, hf⟩
        · split
          · exact hsecond
          · exact hsecond
      · exact ⟨hinv, hf⟩

end Readers

namespace Mirrors

variable {t t' : MultiHashTable} {m m' : List UInt8 → Option (List UInt8)} {k : List UInt8}

/-- A table that has only forgotten. -/
theorem forgets (h : Mirrors t m) (hinv : Inv t') (hf : Forgets t t') : Mirrors t' m := by
  refine ⟨hinv, fun k p v hk hp hv => ?_⟩
  obtain ⟨hp0, hread⟩ := hf.has hp
  rw [hread, hread] at hv
  exact h.entry k p v (hf.toSameShape.validKey.mp hk) hp0 hv

theorem created (h : Created t) : Mirrors t fun _ => none := by
  refine ⟨created_inv h, fun k p v _ hp _ => ?_⟩
  obtain ⟨_, _, _, _, _, _, _, hinit, _⟩ := h
  obtain ⟨⟨rows, hfresh⟩, _⟩ := initFromBuffer_fresh hinit
  exact absurd (hfresh.ltPos p) hp.2.1

/-- The keys that are written keep their readings, or are given new ones. -/
theorem of_setKeeps (h : Mirrors t m) (hs : SetKeeps t k t')
    (hm : ∀ k', k' ≠ k → m' k' = m k')
    (hown : ∀ p v, t'.ValidKey k → t'.Has k p →
      twoReads (t'.readNode p SMALL_BUFFER_SIZE) (t'.readNode p HUGE_BUFFER_SIZE) = .ok v →
        m' k = some v) : Mirrors t' m' := by
  refine ⟨hs.inv, fun k' p v hk' hp hv => ?_⟩
  by_cases hkk : k' = k
  · subst hkk
    exact hown p v hk' hp hv
  · obtain ⟨hp0, hread⟩ := hs.others k' p hkk hp
    rw [hread, hread] at hv
    rw [hm k' hkk]
    exact h.entry k' p v (hs.shape.validKey.mp hk') hp0 hv

/-- **A write** makes its entry in the map, or leaves the map alone. -/
theorem setData {now : Nat} {data : List UInt8} {evict : Bool} {r : Except MhtError Unit}
    (h : Mirrors t m) (hk : t.ValidKey k) (hd : data ≠ [])
    (hno : ∀ t2, t.TakenIn k data evict t2 → ¬ t2.lt.Overruns (t2.lt.blockCount data.length))
    (heq : t.setData now k data evict = some (r, t')) :
    SameShape t t' ∧
      (Mirrors t' m ∨ r = .ok () ∧ Mirrors t' (Function.update m k (some data))) := by
  obtain ⟨hkeeps, hend⟩ := setData_keeps h.inv hk hd heq
  have hsame : SameKey t t' k → Mirrors t' m := fun hsame =>
    h.of_setKeeps hkeeps (fun _ _ => rfl) fun p v hk' hp hv => by
      have hp0 := hsame.2 p hp
      rw [(hsame.1 p hp0).2, (hsame.1 p hp0).2] at hv
      exact h.entry k p v hk hp0 hv
  refine ⟨hkeeps.shape, ?_⟩
  cases r with
  | error e => exact .inl (hsame (setEnds_error h.inv hk hend).2)
  | ok u =>
    obtain ⟨-, w, t1, t2, hplace, hr, hfalse, hst | ⟨-, -, -, hkey⟩⟩ := setEnds_ok h.inv hk hd hend
    · have htaken : t.TakenIn k data evict t2 :=
        ⟨w, t1, hplace, hr, fun he => hfalse (.inl he), hst.asked⟩
      refine .inr ⟨rfl, h.of_setKeeps hkeeps (fun k' hkk => Function.update_of_ne hkk _ _) ?_⟩
      intro p v _ hp hv
      obtain rfl := hkeeps.inv.has_unique hp hst.has
      have hread := MhtState.readNode_holds hkeeps.inv (hst.holds (hno t2 htaken))
      rw [hread, hread] at hv
      rw [Function.update_self, twoReads_reading hv]
    · exact .inl (hsame hkey)

/-- `EraseData` forgets its key, -/
theorem eraseData (h : Mirrors t m) (hk : t.ValidKey k) :
    SameShape t (t.eraseData k).2 ∧ Mirrors (t.eraseData k).2 (Function.update m k none) := by
  have hf := MhtState.eraseData_forgets h.inv hk
  have h' := h.forgets (eraseData_inv h.inv k) hf
  refine ⟨hf.toSameShape, h'.inv, fun k' p v hk' hp hv => ?_⟩
  by_cases hkk : k' = k
  · subst hkk
    -- the node of the key has been erased
    exfalso
    rcases MapState.eraseData_cases h.inv hk with ⟨q, hq, heq⟩ | ⟨hno, heq⟩
    · obtain rfl := h.inv.has_unique (hf.has hp).1 hq
      rw [heq] at hp
      exact hp.2.1 (eraseNode_spec h.inv hq.1).2.2.1
    · rw [heq] at hp
      exact hno p hp
  · rw [Function.update_of_ne hkk]
    exact h'.entry k' p v hk' hp hv

/-- and so does `EraseBadNode`. -/
theorem eraseBadNode (h : Mirrors t m) (hk : t.ValidKey k) :
    SameShape t (t.eraseBadNode k).2 ∧ Mirrors (t.eraseBadNode k).2 m := by
  have hsearch := (search_spec h.inv.maxRow k (t.hashfunc k).toNat).1
  have hf : Forgets t (t.eraseBadNode k).2 := by
    unfold MultiHashTable.eraseBadNode
    rw [if_neg hk.ne_nil]
    simp only [hsearch]
    cases hnode : (t.search k (t.hashfunc k).toNat).1.node with
    | none => exact Forgets.refl t
    | some p => exact (wipeNode_spec h.inv (search_found_lt h.inv hnode)).2.1
  exact ⟨hf.toSameShape, h.forgets (eraseBadNode_inv h.inv k) hf⟩

/-- **A read**: nothing is lost, and what is read is in the map. -/
theorem readCache (h : Mirrors t m) (hk : t.ValidKey k) (call : ReadCall) :
    SameShape t (t.readCache call.now call.now' k call.small_buffer call.huge_buffer).table ∧
      Mirrors (t.readCache call.now call.now' k call.small_buffer call.huge_buffer).table m ∧
      ∀ data, (t.readCache call.now call.now' k call.small_buffer call.huge_buffer).result = .ok data →
        data = [] ∨ m k = some data := by
  obtain ⟨hinv, hf⟩ := readCache_forgets h.inv hk call.now call.now' call.small_buffer call.huge_buffer
  refine ⟨hf.toSameShape, h.forgets hinv hf, fun data hdata => ?_⟩
  have hfull := readCache_buffers hdata
  by_cases hex : ∃ p, t.Has k p
  · obtain ⟨p, hp⟩ := hex
    rw [readCache_has h.inv hk hp] at hfull
    exact .inr (h.entry k p data hk hp hfull)
  · rw [readCache_absent h.inv hk fun p hp => hex ⟨p, hp⟩] at hfull
    exact .inl (Except.ok.inj hfull).symm

end Mirrors

/-! ## Runs -/

/-- A tree is never stored as nothing. -/
theorem serializeString_ne_nil {n : KnvNode} {bytes : List UInt8} (h : n.serializeString = .ok bytes) :
    bytes ≠ [] := by
  obtain ⟨hencoded, -⟩ := KnvNode.serializeString_eq_ok.mp h
  have htag : n.tag ≠ 0 := KnvNode.serialize_tag ((KnvNode.serialize_eq_ok n).mpr ⟨hencoded, Nat.le_refl _⟩)
  cases hfold : n.isFolded with
  | true =>
    rw [KnvNode.encoded_of_folded htag hfold] at hencoded
    obtain rfl := Option.some.inj hencoded
    exact List.append_ne_nil_of_left_ne_nil (List.ne_nil_of_length_pos (vintBytes_pos _)) _
  | false =>
    obtain ⟨w, -, rfl, -⟩ := (KnvNode.encoded_of_lists htag hfold).mp hencoded
    rw [PbEval.headBytes, List.append_assoc]
    exact List.append_ne_nil_of_left_ne_nil (List.ne_nil_of_length_pos (vintBytes_pos _)) _

/-- The block store takes the value at the first attempt, and does not overrun. -/
def takenAtOnce (t : MultiHashTable) (k data : List UInt8) (evict : Bool) : Bool :=
  match t.place k evict with
  | (.ok w, t1) =>
    retCode (t1.lt.setData (t1.nodeLtPos w.pDataNode) data).1 = 0 ∧
      ¬ t1.lt.Overruns (t1.lt.blockCount data.length)
  | (.error _, _) => true

theorem not_overruns_of_takenAtOnce {t t2 : MultiHashTable} {k data : List UInt8} {evict : Bool}
    (h : takenAtOnce t k data evict = true) (ht : t.TakenIn k data evict t2) :
    ¬ t2.lt.Overruns (t2.lt.blockCount data.length) := by
  obtain ⟨w, t1, hplace, hr, -, -⟩ := ht
  rw [takenAtOnce, hplace] at h
  obtain ⟨hret, hno⟩ := of_decide_eq_true h
  rcases hr.cases_head with rfl | ⟨t3, hround, -⟩
  · exact hno
  · exact absurd hround (MultiHashTable.not_round_of_taken hret t3)

/-- What has been done to the keys of a table. -/
inductive StorageEvent where
  | wrote (key : List UInt8) (tree : KnvNode)
  | erased (key : List UInt8)

/-- The calls.  The storage may belong to any thread. -/
inductive StorageOp where
  | read (st : UcStorage) (call : ReadCall)
  | write (st : UcStorage) (now : Nat) (auto_remove : Bool)
  | erase (st : UcStorage)
  | fixHtBadNode (st : UcStorage)

/-- The table, and the calls of `Write` and `Erase` that succeeded, the latest one first. -/
structure StorageState where
  table : MultiHashTable
  log : List StorageEvent

namespace StorageState

/-- The storage of a call. -/
def storageOf : StorageOp → UcStorage
  | .read st _ => st
  | .write st _ _ => st
  | .erase st => st
  | .fixHtBadNode st => st

/-- The state after a call of `Write`. -/
def afterWrite (s : StorageState) (st : UcStorage) (ret : Int) (t : MultiHashTable) : StorageState :=
  match st.tree with
  | some tree => if ret = 0 then ⟨t, .wrote st.key tree :: s.log⟩ else { s with table := t }
  | none => { s with table := t }

/-- One call. -/
def exec (s : StorageState) : StorageOp → Option StorageState
  | .read st call => some { s with table := (st.read s.table call).2.2 }
  | .write st now auto_remove =>
    (st.write s.table now auto_remove).map fun r => s.afterWrite st r.1 r.2.2
  | .erase st =>
    let (ret, _, t) := st.erase s.table
    some ⟨t, if 0 ≤ ret then .erased st.key :: s.log else s.log⟩
  | .fixHtBadNode st => some { s with table := (st.fixHtBadNode s.table).2 }

/-- The key fits a node, and a write does not make the block store overrun. -/
def Allowed (s : StorageState) (op : StorageOp) : Prop :=
  s.table.ValidKey (storageOf op).key ∧
    match op with
    | .write st _ auto_remove => ∀ tree bytes, st.tree = some tree → tree.serializeString = .ok bytes →
      ∀ t2, s.table.TakenIn st.key bytes auto_remove t2 →
        ¬ t2.lt.Overruns (t2.lt.blockCount bytes.length)
    | _ => True

def Step (s s' : StorageState) : Prop := ∃ op, s.Allowed op ∧ s.exec op = some s'

/-- The tree was written under the key, and the key has not been erased since. -/
def Standing (log : List StorageEvent) (key : List UInt8) (tree : KnvNode) : Prop :=
  ∃ later earlier, log = later ++ .wrote key tree :: earlier ∧ .erased key ∉ later

/-- What `Read` may return under a key: a tree built from what was written there and stands. -/
def Rereads (log : List StorageEvent) (key : List UInt8) (tree : KnvNode) : Prop :=
  ∃ written bytes, Standing log key written ∧ written.serializeString = .ok bytes ∧
    KnvNode.newFromData bytes = .ok tree

/-- The map behind the table holds what stands. -/
structure Inv (s : StorageState) (m : List UInt8 → Option (List UInt8)) : Prop where
  mirrors : Mirrors s.table m
  standing : ∀ key data, m key = some data →
    ∃ tree, Standing s.log key tree ∧ tree.serializeString = .ok data

section Steps

variable {s s' : StorageState} {m : List UInt8 → Option (List UInt8)} {log : List StorageEvent}
  {key : List UInt8} {tree : KnvNode}

/-- A table of which nothing was written holds nothing. -/
theorem Inv.created {t : MultiHashTable} (hc : Created t) : Inv ⟨t, []⟩ fun _ => none :=
  ⟨Mirrors.created hc, fun key data hkey => by cases hkey⟩

theorem standing_new (log : List StorageEvent) (key : List UInt8) (tree : KnvNode) :
    Standing (.wrote key tree :: log) key tree := ⟨[], log, rfl, List.not_mem_nil⟩

/-- Only erasing the key ends it. -/
theorem Standing.cons (h : Standing log key tree) {e : StorageEvent} (he : e ≠ .erased key) :
    Standing (e :: log) key tree := by
  obtain ⟨later, earlier, rfl, hno⟩ := h
  refine ⟨e :: later, earlier, rfl, fun hm => ?_⟩
  rcases List.mem_cons.mp hm with rfl | hm
  · exact he rfl
  · exact hno hm

/-- The table of a read. -/
theorem read_table (st : UcStorage) (t : MultiHashTable) (call : ReadCall) : (st.read t call).2.2 =
    (t.readCache call.now call.now' st.key call.small_buffer call.huge_buffer).table := by
  unfold UcStorage.read
  dsimp only
  split
  · rfl
  · split
    · rfl
    · split <;> rfl

/-- A read that returns `0` found bytes, and made a tree of them. -/
theorem read_zero {st : UcStorage} {t : MultiHashTable} {call : ReadCall}
    (h : (st.read t call).1 = 0) : ∃ data tree, data ≠ [] ∧
      (t.readCache call.now call.now' st.key call.small_buffer call.huge_buffer).result = .ok data ∧
      KnvNode.newFromData data = .ok tree ∧ (st.read t call).2.1.tree = some tree := by
  unfold UcStorage.read at h ⊢
  dsimp only at h ⊢
  cases hres : (t.readCache call.now call.now' st.key call.small_buffer call.huge_buffer).result with
  | error e =>
    rw [hres] at h
    exact absurd h (show (-2 : Int) ≠ 0 by decide)
  | ok data =>
    rw [hres] at h
    dsimp only at h ⊢
    by_cases hnil : data = []
    · rw [if_pos hnil] at h
      exact absurd h (show (-1 : Int) ≠ 0 by decide)
    · rw [if_neg hnil] at h ⊢
      cases hnew : KnvNode.newFromData data with
      | error e =>
        rw [hnew] at h
        exact absurd h (show (-3 : Int) ≠ 0 by decide)
      | ok tree => exact ⟨data, tree, hnil, rfl, hnew, rfl⟩

/-- A write leaves the table alone, or it is a call of `SetData` with the bytes of the tree. -/
theorem write_cases {st : UcStorage} {t : MultiHashTable} {now : Nat} {auto_remove : Bool}
    {r : Int × UcStorage × MultiHashTable} (h : st.write t now auto_remove = some r) :
    r.2.2 = t ∧ r.1 ≠ 0 ∨ ∃ tree bytes res, st.tree = some tree ∧ tree.serializeString = .ok bytes ∧
      t.setData now st.key bytes auto_remove = some (res, r.2.2) ∧ (r.1 = 0 ↔ res = .ok ()) := by
  unfold UcStorage.write at h
  cases htree : st.tree with
  | none =>
    rw [htree] at h
    cases h
    exact .inl ⟨rfl, show (-1 : Int) ≠ 0 by decide⟩
  | some tree =>
    rw [htree] at h
    dsimp only at h
    split at h
    · cases h
      exact .inl ⟨rfl, show (-1 : Int) ≠ 0 by decide⟩
    cases hbytes : tree.serializeString with
    | error e =>
      rw [hbytes] at h
      cases h
      exact .inl ⟨rfl, show (-2 : Int) ≠ 0 by decide⟩
    | ok bytes =>
      rw [hbytes] at h
      dsimp only at h
      split at h
      · cases h
      · rename_i e t' hset
        cases h
        exact .inr ⟨tree, bytes, _, rfl, hbytes, hset, fun hc => absurd hc (Int.ne_of_lt e.code_neg), nofun⟩
      · rename_i u t' hset
        cases h
        exact .inr ⟨tree, bytes, _, rfl, hbytes, hset, fun _ => rfl, fun _ => rfl⟩

/-- A write does not end what stands. -/
theorem Inv.logged (h : s.Inv m) {t : MultiHashTable} (hm : Mirrors t m) (key : List UInt8)
    (tree : KnvNode) : Inv ⟨t, .wrote key tree :: s.log⟩ m :=
  ⟨hm, fun _ data hd =>
    let ⟨standing, hst, hbytes⟩ := h.standing _ data hd
    ⟨standing, hst.cons nofun, hbytes⟩⟩

theorem afterWrite_failed {st : UcStorage} {ret : Int} (h : ret ≠ 0) (t : MultiHashTable) :
    s.afterWrite st ret t = { s with table := t } := by
  unfold afterWrite
  split
  · exact if_neg h
  · rfl

/-- **`Write` keeps the invariant**, whether its value is stored or not. -/
theorem write_inv {st : UcStorage} {now : Nat} {auto_remove : Bool} (h : s.Inv m)
    (hal : s.Allowed (.write st now auto_remove)) (heq : s.exec (.write st now auto_remove) = some s') :
    SameShape s.table s'.table ∧ ∃ m', s'.Inv m' := by
  have hk : s.table.ValidKey st.key := hal.1
  obtain ⟨⟨ret, st', t⟩, hw, rfl⟩ := Option.map_eq_some_iff.mp heq
  rcases write_cases hw with ⟨htab, hne⟩ | ⟨tree, bytes, res, htree, hbytes, hset, hzero⟩
  · dsimp only at htab hne ⊢
    rw [afterWrite_failed hne, htab]
    exact ⟨SameShape.refl _, m, h.mirrors, h.standing⟩
  · dsimp only at hset hzero ⊢
    have hd := serializeString_ne_nil hbytes
    obtain ⟨hshape, hor⟩ := h.mirrors.setData hk hd (hal.2 tree bytes htree hbytes) hset
    by_cases hret : ret = 0
    · have hlog : s.afterWrite st ret t = ⟨t, .wrote st.key tree :: s.log⟩ := by
        rw [afterWrite, htree]
        exact if_pos hret
      rw [hlog]
      refine ⟨hshape, ?_⟩
      rcases hor with hm | ⟨-, hm⟩
      · exact ⟨m, h.logged hm st.key tree⟩
      · refine ⟨_, hm, fun key data hkey => ?_⟩
        by_cases hkk : key = st.key
        · rw [hkk, Function.update_self] at hkey
          obtain rfl := Option.some.inj hkey
          exact ⟨tree, hkk ▸ standing_new s.log key tree, hbytes⟩
        · rw [Function.update_of_ne hkk] at hkey
          exact (h.logged h.mirrors st.key tree).standing key data hkey
    · rw [afterWrite_failed hret]
      refine ⟨hshape, m, ?_, h.standing⟩
      exact hor.resolve_right fun hor => hret (hzero.mpr hor.1)

/-- **One call keeps the invariant.** -/
theorem step_inv (h : s.Inv m) (hs : Step s s') :
    SameShape s.table s'.table ∧ ∃ m', s'.Inv m' := by
  obtain ⟨op, hal, heq⟩ := hs
  cases op with
  | read st call =>
    obtain rfl := Option.some.inj heq
    have hk : s.table.ValidKey st.key := hal.1
    obtain ⟨hshape, hm, -⟩ := h.mirrors.readCache hk call
    rw [← read_table st] at hshape hm
    exact ⟨hshape, m, hm, h.standing⟩
  | write st now auto_remove => exact write_inv h hal heq
  | erase st =>
    have hk : s.table.ValidKey st.key := hal.1
    obtain ⟨hshape, hm⟩ := h.mirrors.eraseData hk
    have herase : ∃ ret, (0 : Int) ≤ ret ∧ st.erase s.table = (ret, st, (s.table.eraseData st.key).2) := by
      unfold UcStorage.erase
      rcases MapState.eraseData_cases h.mirrors.inv hk with ⟨p, -, he⟩ | ⟨-, he⟩
      · rw [he]
        exact ⟨1, by decide, rfl⟩
      · rw [he]
        exact ⟨0, Int.le_refl 0, rfl⟩
    obtain ⟨ret, hret, he⟩ := herase
    have hexec : s.exec (.erase st) =
        some ⟨(s.table.eraseData st.key).2, .erased st.key :: s.log⟩ := by
      simp only [exec, he, if_pos hret]
    obtain rfl := Option.some.inj (hexec.symm.trans heq)
    refine ⟨hshape, _, hm, fun key data hkey => ?_⟩
    have hkk : key ≠ st.key := by
      rintro rfl
      rw [Function.update_self] at hkey
      cases hkey
    rw [Function.update_of_ne hkk] at hkey
    obtain ⟨tree, hst, hbytes⟩ := h.standing key data hkey
    exact ⟨tree, hst.cons fun he => hkk (StorageEvent.erased.inj he).symm, hbytes⟩
  | fixHtBadNode st =>
    obtain rfl := Option.some.inj heq
    have hk : s.table.ValidKey st.key := hal.1
    obtain ⟨hshape, hm⟩ := h.mirrors.eraseBadNode hk
    have hfix : (st.fixHtBadNode s.table).2 = (s.table.eraseBadNode st.key).2 := by
      unfold UcStorage.fixHtBadNode
      split <;> rename_i heq <;> rw [heq]
    show SameShape s.table (st.fixHtBadNode s.table).2 ∧ _
    rw [hfix]
    exact ⟨hshape, m, hm, h.standing⟩

/-- What is read stands. -/
theorem Inv.reads (h : s.Inv m) (st : UcStorage) (call : ReadCall) (hk : s.table.ValidKey st.key)
    (hread : (st.read s.table call).1 = 0) :
    ∃ tree, (st.read s.table call).2.1.tree = some tree ∧ Rereads s.log st.key tree := by
  obtain ⟨data, tree, hne, hdata, hnew, htree⟩ := read_zero hread
  obtain ⟨-, -, hknown⟩ := h.mirrors.readCache hk call
  have hm := (hknown data hdata).resolve_left hne
  obtain ⟨written, hst, hbytes⟩ := h.standing _ data hm
  exact ⟨tree, htree, written, data, hst, hbytes, hnew⟩

end Steps

/-- **A tree that is read was written**, under that key and since it was last erased. -/
theorem run_reads {t : MultiHashTable} {s : StorageState} (hc : Created t)
    (hrun : Relation.ReflTransGen Step ⟨t, []⟩ s) (st : UcStorage) (call : ReadCall)
    (hk : s.table.ValidKey st.key) (hread : (st.read s.table call).1 = 0) :
    ∃ tree, (st.read s.table call).2.1.tree = some tree ∧ Rereads s.log st.key tree := by
  have hkeep : ∀ {s s'}, (∃ m, s.Inv m) → Step s s' → ∃ m, s'.Inv m := by
    rintro s s' ⟨m, h⟩ hs
    exact (step_inv h hs).2
  obtain ⟨m, hinv⟩ := run_invariant (I := fun s => ∃ m, s.Inv m) hrun ⟨_, Inv.created hc⟩ hkeep
  exact hinv.reads st call hk hread

/-- A storage with a tree whose key is `01`. -/
def keyedStorage : UcStorage :=
  match KnvNode.newFromData [0x5a, 5, 0x0a, 1, 1, 0x60, 5] with
  | .ok tree => (UcStorage.new []).attach tree true
  | .error _ => UcStorage.new []

theorem keyedStorage_key : keyedStorage.key = [1] := by decide +kernel

/-- It may be written to a table that has a node for it, and does not run out of blocks. -/
theorem keyedStorage_allowed {t : MultiHashTable} {w : Place} (hk : t.ValidKey [1])
    (hplace : t.place [1] false = (.ok w, t)) (hno : ¬ t.lt.Overruns (t.lt.blockCount 7)) (now : Nat) :
    Allowed ⟨t, []⟩ (.write keyedStorage now false) := by
  refine ⟨by rw [storageOf, keyedStorage_key]; exact hk, fun tree bytes htree hbytes t2 htaken => ?_⟩
  have hlen : (keyedStorage.tree.bind fun tree => tree.serializeString.toOption) =
      some [0x5a, 5, 0x0a, 1, 1, 0x60, 5] := by decide +kernel
  rw [htree, Option.bind_some, hbytes] at hlen
  obtain rfl := Option.some.inj hlen
  obtain ⟨w', t1, hplace', -, hfalse, -⟩ := htaken
  obtain rfl := hfalse rfl
  rw [keyedStorage_key, hplace] at hplace'
  obtain rfl := (Prod.mk.inj hplace').2
  exact hno

/-- It is written to a new table, and read by another one. -/
theorem run_reads_one : ∃ s tree, Relation.ReflTransGen Step ⟨smallTable, []⟩ s ∧
    ((UcStorage.new [1]).read s.table ⟨0, 0, true, true⟩).2.1.tree = some tree ∧
    Rereads s.log [1] tree := by
  have hexec : ((exec ⟨smallTable, []⟩ (.write keyedStorage 0 false)).map fun s =>
      ((UcStorage.new [1]).read s.table ⟨0, 0, true, true⟩).1) = some 0 := by decide +kernel
  obtain ⟨s, heq, hread⟩ := Option.map_eq_some_iff.mp hexec
  have hvalid : smallTable.ValidKey [1] := by decide
  have hplace : smallTable.place [1] false = (.ok ⟨1, true, 0, none⟩, smallTable) := by rfl
  have hal := keyedStorage_allowed hvalid hplace (by decide +kernel) 0
  have hrun : Relation.ReflTransGen Step ⟨smallTable, []⟩ s := .single ⟨_, hal, heq⟩
  have hshape := (step_inv (Inv.created smallTable_created) ⟨_, hal, heq⟩).1
  obtain ⟨tree, htree, hrereads⟩ := run_reads smallTable_created hrun (UcStorage.new [1])
    ⟨0, 0, true, true⟩ (hshape.validKey.mpr hvalid) hread
  exact ⟨s, tree, hrun, htree, hrereads⟩

end StorageState

end MysqlProxy
