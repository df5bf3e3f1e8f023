/-
  The storages of several processes, which come and go (`InitWrite`, `InitRead` and `Destroy` of
  `storage.cc`).

  A server keeps its cache in a segment of shared memory.  When it is restarted it asks for the
  segment again, with the arguments of its configuration; other processes may have been writing in the
  meantime.

  `ShmSystem.run_survives`: in every run, whatever the processes do,
  * a tree that is read was written under that key by one of them, running or not, and none of them has
    erased the key since,
  * only calls of the storages change a table: it survives that everybody exits,
  * `InitWrite` accepts a table exactly with the size, key length, row number and block size that it was
    created with, and `InitRead` accepts every table.

  Modelling choices.
  * Calls are steps: the processes write under the lock of the cache, and a table is created by one
    process alone.
  * `logs` and `params` are not in the program: the calls of `Write` and `Erase` that succeeded, and the
    arguments that a table was created with.
  * `GetTotalMemory` is an argument.
-/
import MysqlProxy.Ht.ShmInit
import MysqlProxy.Storage.UcStorage

namespace MysqlProxy

open MultiHashTable

def MAX_HT_SHM_NUM : Nat := 16

/-- A process: `create_idx`, the objects `mht`, and what `GetInitErrorMsg` returns. -/
structure ShmProcess where
  create_idx : Nat
  mht : Nat → Option MhtObject
  g_errmsg : String

/-- The arguments of `InitWrite`. -/
structure InitWriteArgs where
  shmkey : Nat
  shmsz_percent : Nat
  max_keylen : Nat
  row_num : Nat
  avg_blocknum : Nat
  block_size : Nat
  use_access_seq : Bool

/-- `ddwBufferSize`: whole pieces of 2 MB. -/
def shmBufferSize (totalMemory shmsz_percent : Nat) : Nat :=
  (totalMemory * shmsz_percent % 2 ^ 64 / 100 + (2048 * 1024 - 1)) / (2048 * 1024) * (1024 * 2048)

/-- `dwIndexRatio`. -/
def indexRatio (avg_blocknum : Nat) : Nat :=
  let ratio := if avg_blocknum ≠ 0 then 100 / avg_blocknum else 150
  if ratio = 0 then 1 else ratio

/-- The parameters of `CreateFromShm`. -/
def InitWriteArgs.param (args : InitWriteArgs) (totalMemory : Nat) : MhtInitParam where
  ddwShmKey := args.shmkey
  ddwBufferSize := shmBufferSize totalMemory args.shmsz_percent
  wMaxKeyLen := args.max_keylen % 2 ^ 16
  wRowNum := args.row_num
  dwIndexRatio := indexRatio args.avg_blocknum
  ddwBlockSize := args.block_size
  bUseAccessSeq := args.use_access_seq
  hashFunc := none

/-- What is left of an object. -/
def ShmProcess.setObject (pr : ShmProcess) (idx : Nat) (object : Option MhtObject) : ShmProcess :=
  { pr with mht := Function.update pr.mht idx object }

/-- `InitWrite`: what it returns, the process and the segments. -/
def initWrite (segs : Segments) (pr : ShmProcess) (args : InitWriteArgs) (totalMemory : Nat)
    (shmget : Option String) : Int × ShmProcess × Segments :=
  let idx := pr.create_idx
  let pr := { pr with create_idx := pr.create_idx + 1 }
  if idx ≥ MAX_HT_SHM_NUM then
    (-1, { pr with
      g_errmsg := pr.g_errmsg ++ "Too many FDs, please adjust MAX_HT_SHM_NUM if necessary" }, segs)
  else
    let r := createFromShm segs (args.param totalMemory) shmget
    let pr := pr.setObject idx r.object
    match r.result with
    | .error e =>
      (-4, { pr with g_errmsg := pr.g_errmsg ++ "Mht Create shm failed: " ++ e.errmsg }, r.segments)
    | .ok () => (idx, pr, r.segments)

/-- `InitRead`, which returns 0 and not `idx`. -/
def initRead (segs : Segments) (pr : ShmProcess) (shmkey : Nat) : Int × ShmProcess :=
  let idx := pr.create_idx
  let pr := { pr with create_idx := pr.create_idx + 1 }
  if idx ≥ MAX_HT_SHM_NUM then
    (-1, { pr with
      g_errmsg := pr.g_errmsg ++ "Too many FDs, please adjust MAX_HT_SHM_NUM if necessary" })
  else
    match initFromShm segs shmkey none with
    | .error e =>
      (e.code, { pr.setObject idx none with
        g_errmsg := pr.g_errmsg ++ s!"Mht init failed: {e.code}:{e.errmsg}" })
    | .ok (object, _) => (0, pr.setObject idx (some object))

/-- The segments, the running processes, and what has been done to each segment. -/
structure ShmSystem (P : Type) where
  segments : Segments
  processes : P → Option ShmProcess
  logs : Nat → List StorageEvent
  params : Nat → Option MhtInitParam

inductive ShmEvent (P : Type) where
  | start (p : P)
  | fork (p q : P)
  | exit (p : P)
  | initWrite (p : P) (args : InitWriteArgs) (totalMemory : Nat) (shmget : Option String)
  | initRead (p : P) (shmkey : Nat)
  | destroy (p : P) (idx : Nat)
  | call (p : P) (idx : Nat) (op : StorageOp)

namespace ShmSystem

variable {P : Type}

/-- No segments, and nobody is running. -/
def empty : ShmSystem P := ⟨fun _ => none, fun _ => none, fun _ => [], fun _ => none⟩

/-- The table in a segment. -/
def tableOf (s : ShmSystem P) (key : Nat) : Option (Nat × ShmTable) :=
  match s.segments key with
  | some ⟨size, .table h⟩ => some (size, h)
  | _ => none

/-- The table as an object sees it, and what has been done to it. -/
def seen (s : ShmSystem P) (object : MhtObject) (h : ShmTable) : StorageState :=
  ⟨{ h.table with hashfunc := object.hashfunc }, s.logs object.key⟩

section Steps

variable [DecidableEq P]

def setProcess (s : ShmSystem P) (p : P) (pr : Option ShmProcess) : ShmSystem P :=
  { s with processes := Function.update s.processes p pr }

/-- What happens next, if it can. -/
def exec (s : ShmSystem P) : ShmEvent P → Option (ShmSystem P)
  | .start p =>
    match s.processes p with
    | some _ => none
    | none => some (s.setProcess p (some ⟨0, fun _ => none, ""⟩))
  | .fork p q =>
    match s.processes p, s.processes q with
    | some pr, none => some (s.setProcess q (some pr))
    | _, _ => none
  | .exit p => some (s.setProcess p none)
  | .initWrite p args totalMemory shmget =>
    (s.processes p).map fun pr =>
      let (_, pr, segs) := MysqlProxy.initWrite s.segments pr args totalMemory shmget
      let key := keyT args.shmkey
      { s.setProcess p (some pr) with
        segments := segs
        params :=
          -- the segment is new
          if s.segments key = none ∧ segs key ≠ none then
            Function.update s.params key (some (args.param totalMemory).withDefaults)
          else s.params }
  | .initRead p shmkey =>
    (s.processes p).map fun pr => s.setProcess p (some (MysqlProxy.initRead s.segments pr shmkey).2)
  | .destroy p idx => (s.processes p).map fun pr => s.setProcess p (some (pr.setObject idx none))
  | .call p idx op =>
    ((s.processes p).bind fun pr => pr.mht idx).bind fun object =>
      (s.tableOf object.key).bind fun (size, h) =>
        ((s.seen object h).exec op).map fun r =>
          { s with
            segments := Function.update s.segments object.key
              (some ⟨size, .table { h with table := r.table }⟩)
            logs := Function.update s.logs object.key r.log }

/-- A new table has no empty row and fits its segment.  The calls are as in a run of the storages. -/
def Allowed (s : ShmSystem P) : ShmEvent P → Prop
  | .initWrite _ args totalMemory _ => keyT args.shmkey ≠ 0 ∧
    ∀ t, (args.param totalMemory).withDefaults.initFromBuffer = .ok t → Created t
  | .initRead _ shmkey => keyT shmkey ≠ 0
  | .call p idx op => ∀ pr object size h, s.processes p = some pr → pr.mht idx = some object →
    s.tableOf object.key = some (size, h) → (s.seen object h).Allowed op
  | _ => True

def Step (s s' : ShmSystem P) : Prop := ∃ e, s.Allowed e ∧ s.exec e = some s'

end Steps

/-- The segment `key` holds a table that stands as it was created with the arguments, and what is read
    there was written. -/
structure Holds (s : ShmSystem P) (key size : Nat) (h : ShmTable) (param : MhtInitParam) : Prop where
  name : key ≠ 0
  created : s.params key = some param
  size : size = param.ddwBufferSize
  large : sizeofMhtHeader + sizeofLinkTableHead + 1024 ≤ param.ddwBufferSize
  stands : h.Stands param
  hash : h.table.hashfunc = defaultHashFunc
  log : ∃ m, StorageState.Inv ⟨h.table, s.logs key⟩ m

/-- The object of a process has the hash function of the table that it is attached to. -/
def Attached (s : ShmSystem P) (object : MhtObject) : Prop :=
  object.hashfunc = defaultHashFunc ∧ ∃ r, s.tableOf object.key = some r

/-- The invariant. -/
structure Inv (s : ShmSystem P) : Prop where
  fresh : ∀ key, s.segments key = none → s.logs key = []
  segment : ∀ key seg, s.segments key = some seg → seg.Unfinished ∨
    ∃ size h param, seg = ⟨size, .table h⟩ ∧ s.Holds key size h param
  object : ∀ p pr idx object, s.processes p = some pr → pr.mht idx = some object → s.Attached object

variable {s s' : ShmSystem P}

theorem tableOf_eq {key size : Nat} {h : ShmTable} :
    s.tableOf key = some (size, h) ↔ s.segments key = some ⟨size, .table h⟩ := by
  rw [tableOf]
  constructor
  · intro heq
    split at heq
    · rename_i hseg
      obtain ⟨rfl, rfl⟩ := Prod.mk.inj (Option.some.inj heq)
      exact hseg
    · cases heq
  · intro hseg
    rw [hseg]

theorem tableOf_congr {key : Nat} (h : s'.segments key = s.segments key) :
    s'.tableOf key = s.tableOf key := by
  rw [tableOf, h, tableOf]

theorem Inv.holds (h : s.Inv) {key size : Nat} {ht : ShmTable}
    (htab : s.tableOf key = some (size, ht)) : ∃ param, s.Holds key size ht param := by
  rcases h.segment key _ (tableOf_eq.mp htab) with hu | ⟨size', ht', param, heq, hh⟩
  · exact hu.elim
  · obtain ⟨rfl, hdata⟩ := Segment.mk.inj heq
    obtain rfl := ShmData.table.inj hdata
    exact ⟨param, hh⟩

theorem Inv.made (h : s.Inv) {key : Nat} {seg : Segment} (hseg : s.segments key = some seg) :
    seg.Made := by
  rcases h.segment key seg hseg with hu | ⟨size, ht, param, rfl, hh⟩
  · exact .inl hu
  · exact .inr ⟨ht, param, by rw [hh.size], hh.stands⟩

theorem Holds.frame {key size : Nat} {h : ShmTable} {param : MhtInitParam}
    (hh : s.Holds key size h param) (hparams : s'.params key = s.params key)
    (hlogs : s'.logs key = s.logs key) : s'.Holds key size h param :=
  ⟨hh.name, hparams.trans hh.created, hh.size, hh.large, hh.stands, hh.hash, hlogs ▸ hh.log⟩

/-- A storage that is used sees the table itself. -/
theorem seen_eq {object : MhtObject} {h : ShmTable} (hobject : object.hashfunc = defaultHashFunc)
    (hhash : h.table.hashfunc = defaultHashFunc) : s.seen object h = ⟨h.table, s.logs object.key⟩ := by
  rw [seen, hobject, ← hhash]

end ShmSystem

/-! ## The calls of a storage, as calls on its table -/

/-- A read is one call of `GetData`, or two. -/
theorem readCache_anyRun (t : MultiHashTable) (now now' : Nat) (k : List UInt8)
    (small_buffer huge_buffer : Bool) :
    AnyRun t (t.readCache now now' k small_buffer huge_buffer).table := by
  have hfirst : AnyRun t (t.getData now k SMALL_BUFFER_SIZE true).table :=
    .single (.getData t now k SMALL_BUFFER_SIZE true)
  have hsecond := hfirst.tail (.getData _ now' k HUGE_BUFFER_SIZE true)
  unfold MultiHashTable.readCache
  split
  · exact .refl
  dsimp only
  split
  · exact hfirst
  split
  · split
    · exact hfirst
    · split <;> exact hsecond
  · exact hfirst

theorem StorageState.exec_anyRun {s s' : StorageState} {op : StorageOp} (h : s.exec op = some s') :
    AnyRun s.table s'.table := by
  cases op with
  | read st call =>
    obtain rfl := Option.some.inj h
    have htab := read_table st s.table call
    show AnyRun s.table (st.read s.table call).2.2
    rw [htab]
    exact readCache_anyRun s.table _ _ _ _ _
  | write st now auto_remove =>
    obtain ⟨⟨ret, st', t⟩, hw, rfl⟩ := Option.map_eq_some_iff.mp h
    have htab : (s.afterWrite st ret t).table = t := by
      unfold afterWrite
      split
      · split <;> rfl
      · rfl
    rw [htab]
    rcases write_cases hw with ⟨hsame, -⟩ | ⟨tree, bytes, res, -, -, hset, -⟩
    · dsimp only at hsame
      rw [hsame]
      exact .refl
    · exact .single (.setData now st.key bytes auto_remove hset)
  | erase st =>
    have htab : s'.table = (s.table.eraseData st.key).2 := by
      obtain rfl := Option.some.inj h
      show (st.erase s.table).2.2 = _
      unfold UcStorage.erase
      split <;> rename_i heq <;> rw [heq]
    rw [htab]
    exact .single (.eraseData s.table st.key)
  | fixHtBadNode st =>
    have htab : s'.table = (s.table.eraseBadNode st.key).2 := by
      obtain rfl := Option.some.inj h
      show (st.fixHtBadNode s.table).2 = _
      unfold UcStorage.fixHtBadNode
      split <;> rename_i heq <;> rw [heq]
    rw [htab]
    exact .single (.eraseBadNode s.table st.key)

/-! ## The calls of a process -/

theorem ShmProcess.setObject_cases {pr : ShmProcess} {i idx : Nat} {new : Option MhtObject}
    {object : MhtObject} (h : Function.update pr.mht i new idx = some object) :
    pr.mht idx = some object ∨ new = some object := by
  by_cases hidx : idx = i
  · rw [hidx, Function.update_self] at h
    exact .inr h
  · rw [Function.update_of_ne hidx] at h
    exact .inl h

/-- `InitWrite` and the segments.  Its object is attached to a table, or to nothing. -/
theorem initWrite_cases {segs : Segments} (pr : ShmProcess) {args : InitWriteArgs} {totalMemory : Nat}
    (hmade : ∀ seg, segs (keyT args.shmkey) = some seg → seg.Made) (shmget : Option String) :
    ((initWrite segs pr args totalMemory shmget).2.2 = segs ∨
      segs (keyT args.shmkey) = none ∧
        sizeofMhtHeader + sizeofLinkTableHead + 1024 ≤ (args.param totalMemory).ddwBufferSize ∧
        (initWrite segs pr args totalMemory shmget).2.2 =
          Function.update segs (keyT args.shmkey) (some ⟨(args.param totalMemory).ddwBufferSize,
            (args.param totalMemory).withDefaults.newData⟩)) ∧
    ∀ idx object, (initWrite segs pr args totalMemory shmget).2.1.mht idx = some object →
      pr.mht idx = some object ∨ object.hashfunc = defaultHashFunc ∧
        ∃ size h, (initWrite segs pr args totalMemory shmget).2.2 object.key =
          some ⟨size, .table h⟩ := by
  rw [initWrite]
  dsimp only
  split
  · exact ⟨.inl rfl, fun idx object h => .inl h⟩
  have hmade' : ∀ seg, segs (keyT (args.param totalMemory).ddwShmKey) = some seg → seg.Made := hmade
  obtain ⟨hsegs, hobject⟩ := createFromShm_cases hmade' shmget
  -- both ways to return leave the same object
  have hattached : ∀ idx object, Function.update pr.mht pr.create_idx
      (createFromShm segs (args.param totalMemory) shmget).object idx = some object →
      pr.mht idx = some object ∨ object.hashfunc = defaultHashFunc ∧
        ∃ size h, (createFromShm segs (args.param totalMemory) shmget).segments object.key =
          some ⟨size, .table h⟩ := by
    intro idx object h
    refine (ShmProcess.setObject_cases h).imp id fun h => ?_
    obtain ⟨rfl, htab⟩ := hobject object h
    exact ⟨rfl, htab⟩
  split
  · exact ⟨hsegs, hattached⟩
  · exact ⟨hsegs, hattached⟩

/-- `InitRead` attaches its object to a table, or to nothing. -/
theorem initRead_cases {segs : Segments} (pr : ShmProcess) {shmkey : Nat}
    (hmade : ∀ seg, segs (keyT shmkey) = some seg → seg.Made) (idx : Nat) (object : MhtObject)
    (h : (initRead segs pr shmkey).2.mht idx = some object) :
    pr.mht idx = some object ∨ object.hashfunc = defaultHashFunc ∧
      ∃ size ht, segs object.key = some ⟨size, .table ht⟩ := by
  rw [initRead] at h
  dsimp only at h
  split at h
  · exact .inl h
  split at h
  · exact (ShmProcess.setObject_cases h).imp id nofun
  · rename_i object' header hinit
    refine (ShmProcess.setObject_cases h).imp id fun h => ?_
    obtain rfl := Option.some.inj h
    cases hseg : segs (keyT shmkey) with
    | none =>
      obtain ⟨e, he, -⟩ := initFromShm_absent hseg none
      cases he.symm.trans hinit
    | some seg =>
      rcases hmade seg hseg with hu | ⟨ht, param, rfl, hs⟩
      · obtain ⟨e, he, -⟩ := hu.initFromShm hseg none
        cases he.symm.trans hinit
      · obtain ⟨rfl, -⟩ := Prod.mk.inj (Except.ok.inj ((hs.initFromShm hseg none).symm.trans hinit))
        exact ⟨rfl, param.ddwBufferSize, ht, hseg⟩

section Accepted

variable {segs : Segments} {pr : ShmProcess} {h : ShmTable} {param : MhtInitParam}

/-- **`InitWrite` accepts a table** exactly with the arguments that it was created with. -/
theorem initWrite_accepts (hs : h.Stands param)
    (hlarge : sizeofMhtHeader + sizeofLinkTableHead + 1024 ≤ param.ddwBufferSize)
    {args : InitWriteArgs} (hkey : args.shmkey ≠ 0)
    (hseg : segs (keyT args.shmkey) = some ⟨param.ddwBufferSize, .table h⟩)
    (hidx : pr.create_idx < MAX_HT_SHM_NUM) (totalMemory : Nat) (shmget : Option String) :
    0 ≤ (initWrite segs pr args totalMemory shmget).1 ↔
      param.Agrees (args.param totalMemory).withDefaults := by
  have hresult : (createFromShm segs (args.param totalMemory) shmget).result = .ok () ↔
      param.Agrees (args.param totalMemory).withDefaults := by
    by_cases hsize : (args.param totalMemory).ddwBufferSize <
        sizeofMhtHeader + sizeofLinkTableHead + 1024
    · -- the size would have been refused at the creation
      constructor
      · intro hok
        rw [createFromShm, if_pos (.inr hsize)] at hok
        cases hok
      · intro hagrees
        have hbuf : (args.param totalMemory).ddwBufferSize = param.ddwBufferSize :=
          hagrees.bufferSize
        omega
    · have hkey' : (args.param totalMemory).ddwShmKey ≠ 0 := hkey
      exact (hs.createFromShm hkey' (by omega) hseg shmget).2.1
  rw [← hresult, initWrite]
  dsimp only
  rw [if_neg (by omega)]
  split
  · rename_i e he
    rw [he]
    exact ⟨fun hc => absurd hc (show ¬ (0 : Int) ≤ -4 by decide), fun he => by cases he⟩
  · rename_i he
    rw [he]
    exact ⟨fun _ => rfl, fun _ => Int.natCast_nonneg pr.create_idx⟩

/-- **`InitRead` accepts every table.** -/
theorem initRead_accepts (hs : h.Stands param) {shmkey : Nat}
    (hseg : segs (keyT shmkey) = some ⟨param.ddwBufferSize, .table h⟩)
    (hidx : pr.create_idx < MAX_HT_SHM_NUM) : (initRead segs pr shmkey).1 = 0 ∧
      (initRead segs pr shmkey).2.mht pr.create_idx = some ⟨keyT shmkey, defaultHashFunc⟩ := by
  rw [initRead]
  dsimp only
  rw [if_neg (by omega), hs.initFromShm hseg none]
  exact ⟨rfl, Function.update_self _ _ _⟩

end Accepted

/-! ## Runs -/

namespace ShmSystem

variable {P : Type} {s s' : ShmSystem P}

theorem inv_empty : Inv (empty : ShmSystem P) := ⟨fun _ _ => rfl, nofun, nofun⟩

/-- The tables that were there are still there. -/
theorem Attached.mono {object : MhtObject} (h : s.Attached object)
    (htab : ∀ key, (s.tableOf key).isSome → (s'.tableOf key).isSome) : s'.Attached object := by
  obtain ⟨hhash, r, hr⟩ := h
  exact ⟨hhash, Option.isSome_iff_exists.mp (htab _ (by rw [hr]; rfl))⟩

/-- A new segment. -/
theorem Inv.newSegment (h : s.Inv) {key : Nat} (hkey : key ≠ 0) (hnone : s.segments key = none)
    {user_param : MhtInitParam} (hhash : user_param.hashFunc = none)
    (hlarge : sizeofMhtHeader + sizeofLinkTableHead + 1024 ≤ user_param.ddwBufferSize)
    (hcreated : ∀ t, user_param.withDefaults.initFromBuffer = .ok t → Created t) :
    Inv { s with
      segments := Function.update s.segments key
        (some ⟨user_param.ddwBufferSize, user_param.withDefaults.newData⟩)
      params := Function.update s.params key (some user_param.withDefaults) } := by
  have hother : ∀ key', s.segments key' ≠ none → key' ≠ key := fun key' hne he => hne (he ▸ hnone)
  refine ⟨fun key' hnone' => ?_, fun key' seg hseg => ?_, fun p pr idx object hp hidx => ?_⟩
  · by_cases hkk : key' = key
    · rw [hkk]
      exact h.fresh key hnone
    · dsimp only at hnone'
      rw [Function.update_of_ne hkk] at hnone'
      exact h.fresh key' hnone'
  · dsimp only at hseg
    by_cases hkk : key' = key
    · subst hkk
      rw [Function.update_self] at hseg
      obtain rfl := Option.some.inj hseg
      cases hinit : user_param.withDefaults.initFromBuffer with
      | error e =>
        exact .inl (unfinished_new (show user_param.withDefaults.ddwBufferSize ≠ 0 by
          show user_param.ddwBufferSize ≠ 0
          omega) hinit)
      | ok t =>
        refine .inr ⟨user_param.ddwBufferSize, _, user_param.withDefaults,
          by rw [MhtInitParam.newData, hinit], ?_⟩
        refine ⟨hkey, Function.update_self _ _ _, rfl, hlarge, ShmTable.stands_new hinit, ?_, ?_⟩
        · exact (ShmTable.hashfunc_new hinit).trans (congrArg (Option.getD · defaultHashFunc) hhash)
        · rw [show s.logs key' = [] from h.fresh key' hnone]
          exact ⟨_, StorageState.Inv.created (hcreated t hinit)⟩
    · rw [Function.update_of_ne hkk] at hseg
      refine (h.segment key' seg hseg).imp id ?_
      rintro ⟨size, ht, param, heq, hh⟩
      exact ⟨size, ht, param, heq, hh.frame (Function.update_of_ne hkk _ _) rfl⟩
  · refine (h.object p pr idx object hp hidx).mono fun key' hsome => ?_
    have hne : s.segments key' ≠ none := by
      intro hn
      rw [tableOf, hn] at hsome
      cases hsome
    rw [tableOf_congr (Function.update_of_ne (hother key' hne) _ _)]
    exact hsome

/-- A call of a storage. -/
theorem Inv.call (h : s.Inv) {object : MhtObject} (hat : s.Attached object) {size : Nat} {ht : ShmTable}
    (htab : s.tableOf object.key = some (size, ht)) {op : StorageOp} {r : StorageState}
    (hal : (s.seen object ht).Allowed op) (heq : (s.seen object ht).exec op = some r) :
    Inv { s with
      segments := Function.update s.segments object.key (some ⟨size, .table { ht with table := r.table }⟩)
      logs := Function.update s.logs object.key r.log } := by
  obtain ⟨param, hh⟩ := h.holds htab
  obtain ⟨m, hm⟩ := hh.log
  rw [seen_eq hat.1 hh.hash] at hal heq
  obtain ⟨hshape, hm'⟩ := StorageState.step_inv hm ⟨op, hal, heq⟩
  have hrun := StorageState.exec_anyRun heq
  refine ⟨fun key hnone => ?_, fun key seg hseg => ?_, fun p pr idx o hp hidx => ?_⟩
  · dsimp only at hnone ⊢
    by_cases hkk : key = object.key
    · rw [hkk, Function.update_self] at hnone
      cases hnone
    · rw [Function.update_of_ne hkk] at hnone ⊢
      exact h.fresh key hnone
  · dsimp only at hseg
    by_cases hkk : key = object.key
    · subst hkk
      rw [Function.update_self] at hseg
      obtain rfl := Option.some.inj hseg
      refine .inr ⟨size, _, param, rfl, hh.name, hh.created, hh.size, hh.large, hh.stands.anyRun hrun,
        hshape.hash.trans hh.hash, ?_⟩
      dsimp only
      rw [Function.update_self]
      exact hm'
    · rw [Function.update_of_ne hkk] at hseg
      refine (h.segment key seg hseg).imp id fun ⟨size, ht, param, heq, hh⟩ => ?_
      exact ⟨size, ht, param, heq, hh.frame rfl (Function.update_of_ne hkk _ _)⟩
  · refine (h.object p pr idx o hp hidx).mono fun key hsome => ?_
    by_cases hkk : key = object.key
    · rw [hkk, tableOf_eq.mpr (Function.update_self _ _ _)]
      rfl
    · rw [tableOf_congr (Function.update_of_ne hkk _ _)]
      exact hsome

variable [DecidableEq P]

/-- Processes come and go, and attach to tables. -/
theorem Inv.setProcess (h : s.Inv) (p : P) {new : Option ShmProcess}
    (hnew : ∀ pr idx object, new = some pr → pr.mht idx = some object → s.Attached object) :
    (s.setProcess p new).Inv := by
  refine ⟨h.fresh, fun key seg hseg => ?_, fun q pr idx object hq hidx => ?_⟩
  · refine (h.segment key seg hseg).imp id fun ⟨size, ht, param, heq, hh⟩ => ?_
    exact ⟨size, ht, param, heq, hh.frame rfl rfl⟩
  · dsimp only [ShmSystem.setProcess] at hq
    by_cases hqp : q = p
    · rw [hqp, Function.update_self] at hq
      exact hnew pr idx object hq hidx
    · rw [Function.update_of_ne hqp] at hq
      exact h.object q pr idx object hq hidx

/-- `InitWrite`. -/
theorem Inv.initWrite (h : s.Inv) {p : P} {args : InitWriteArgs} {totalMemory : Nat}
    {shmget : Option String} (hal : s.Allowed (.initWrite p args totalMemory shmget))
    (heq : s.exec (.initWrite p args totalMemory shmget) = some s') :
    s'.Inv ∧ ∀ key r, s.tableOf key = some r → s'.tableOf key = some r ∧ s'.logs key = s.logs key := by
  obtain ⟨pr, hp, rfl⟩ := Option.map_eq_some_iff.mp heq
  obtain ⟨hsegs, hobject⟩ := initWrite_cases pr (fun _ => h.made) shmget
  generalize MysqlProxy.initWrite s.segments pr args totalMemory shmget = r at hsegs hobject ⊢
  obtain ⟨ret, pr', segs⟩ := r
  dsimp only at hsegs hobject ⊢
  -- the segments first, then the object
  have hafter : ∀ s1 : ShmSystem P, s1.Inv → s1.segments = segs → s1.processes = s.processes →
      (∀ key r, s.tableOf key = some r → s1.tableOf key = some r ∧ s1.logs key = s.logs key) →
      (s1.setProcess p (some pr')).Inv ∧ ∀ key r, s.tableOf key = some r →
        (s1.setProcess p (some pr')).tableOf key = some r ∧
          (s1.setProcess p (some pr')).logs key = s.logs key := by
    intro s1 h1 hs1 hprocs hkept
    refine ⟨h1.setProcess p fun pr1 idx object hpr1 hidx => ?_, hkept⟩
    obtain rfl := Option.some.inj hpr1
    rcases hobject idx object hidx with hold | ⟨hhash, size, ht, hseg⟩
    · exact h1.object p pr idx object (hprocs ▸ hp) hold
    · exact ⟨hhash, (size, ht), tableOf_eq.mpr (hs1 ▸ hseg)⟩
  rcases hsegs with rfl | ⟨hnone, hlarge, rfl⟩
  · rw [if_neg fun hc => hc.2 hc.1]
    exact hafter s h rfl rfl fun key r hr => ⟨hr, rfl⟩
  · rw [if_pos ⟨hnone, by rw [Function.update_self]; exact Option.some_ne_none _⟩]
    refine hafter _ (h.newSegment hal.1 hnone rfl hlarge hal.2) rfl rfl fun key r hr => ⟨?_, rfl⟩
    have hkk : key ≠ keyT args.shmkey := by
      rintro rfl
      rw [tableOf, hnone] at hr
      cases hr
    rw [tableOf_congr (Function.update_of_ne hkk _ _)]
    exact hr

/-- The event is a call on the table in the segment. -/
def Calls (s : ShmSystem P) (key : Nat) : ShmEvent P → Prop
  | .call p idx _ => ∃ pr object, s.processes p = some pr ∧ pr.mht idx = some object ∧ object.key = key
  | _ => False

/-- **One event keeps the invariant**, and every table that it does not call. -/
theorem exec_inv (h : s.Inv) {e : ShmEvent P} (hal : s.Allowed e) (heq : s.exec e = some s') :
    s'.Inv ∧ ∀ key r, s.tableOf key = some r → ¬ s.Calls key e →
      s'.tableOf key = some r ∧ s'.logs key = s.logs key := by
  cases e with
  | start p =>
    cases hp : s.processes p with
    | some pr => simp only [exec, hp, reduceCtorEq] at heq
    | none =>
      simp only [exec, hp, Option.some.injEq] at heq
      subst heq
      refine ⟨h.setProcess p fun pr idx object hpr hidx => ?_, fun key r hr _ => ⟨hr, rfl⟩⟩
      obtain rfl := Option.some.inj hpr
      cases hidx
  | fork p q =>
    rw [exec] at heq
    split at heq
    · rename_i pr hp hq
      obtain rfl := Option.some.inj heq
      refine ⟨h.setProcess q fun pr' idx object hpr hidx => ?_, fun key r hr _ => ⟨hr, rfl⟩⟩
      obtain rfl := Option.some.inj hpr
      exact h.object p pr idx object hp hidx
    · cases heq
  | exit p =>
    obtain rfl := Option.some.inj heq
    exact ⟨h.setProcess p nofun, fun key r hr _ => ⟨hr, rfl⟩⟩
  | initWrite p args totalMemory shmget =>
    obtain ⟨hinv, hkept⟩ := h.initWrite hal heq
    exact ⟨hinv, fun key r hr _ => hkept key r hr⟩
  | initRead p shmkey =>
    obtain ⟨pr, hp, rfl⟩ := Option.map_eq_some_iff.mp heq
    refine ⟨h.setProcess p fun pr' idx object hpr hidx => ?_, fun key r hr _ => ⟨hr, rfl⟩⟩
    obtain rfl := Option.some.inj hpr
    rcases initRead_cases pr (fun _ => h.made) idx object hidx with hold | ⟨hhash, size, ht, hseg⟩
    · exact h.object p pr idx object hp hold
    · exact ⟨hhash, (size, ht), tableOf_eq.mpr hseg⟩
  | destroy p idx =>
    obtain ⟨pr, hp, rfl⟩ := Option.map_eq_some_iff.mp heq
    refine ⟨h.setProcess p fun pr' i object hpr hi => ?_, fun key r hr _ => ⟨hr, rfl⟩⟩
    obtain rfl := Option.some.inj hpr
    exact h.object p pr i object hp ((ShmProcess.setObject_cases hi).resolve_right nofun)
  | call p idx op =>
    obtain ⟨object, hobject, heq⟩ := Option.bind_eq_some_iff.mp heq
    obtain ⟨pr, hp, hidx⟩ := Option.bind_eq_some_iff.mp hobject
    obtain ⟨⟨size, ht⟩, htab, heq⟩ := Option.bind_eq_some_iff.mp heq
    obtain ⟨r, hr, rfl⟩ := Option.map_eq_some_iff.mp heq
    refine ⟨h.call (h.object p pr idx object hp hidx) htab (hal pr object size ht hp hidx htab) hr,
      fun key r' hr' hno => ?_⟩
    have hkk : key ≠ object.key := fun he => hno ⟨pr, object, hp, hidx, he.symm⟩
    rw [tableOf_congr (Function.update_of_ne hkk _ _)]
    exact ⟨hr', Function.update_of_ne hkk _ _⟩

theorem run_inv (hrun : Relation.ReflTransGen Step (empty : ShmSystem P) s) : s.Inv :=
  run_invariant hrun inv_empty fun h ⟨_, hal, heq⟩ => (exec_inv h hal heq).1

/-- A step that does not call the table in the segment. -/
def StepBeside (key : Nat) (s s' : ShmSystem P) : Prop :=
  ∃ e, s.Allowed e ∧ ¬ s.Calls key e ∧ s.exec e = some s'

theorem run_beside {key : Nat} {r : Nat × ShmTable} (h : s.Inv) (hr : s.tableOf key = some r)
    (hrun : Relation.ReflTransGen (StepBeside key) s s') :
    s'.tableOf key = some r ∧ s'.logs key = s.logs key := by
  have hboth : s'.Inv ∧ s'.tableOf key = some r ∧ s'.logs key = s.logs key := by
    refine run_invariant (I := fun s' => s'.Inv ∧ s'.tableOf key = some r ∧ s'.logs key = s.logs key)
      hrun ⟨h, hr, rfl⟩ ?_
    rintro s1 s2 ⟨h1, hr1, hlog⟩ ⟨e, hal, hno, heq⟩
    obtain ⟨h2, hkept⟩ := exec_inv h1 hal heq
    obtain ⟨hr2, hlog2⟩ := hkept key r hr1 hno
    exact ⟨h2, hr2, hlog2.trans hlog⟩
  exact hboth.2

/-- **A table survives a restart.**  In every run:
    * what is read was written under the key by some process, and not erased since,
    * a table stays as it is, while others come, go, and call other tables,
    * it is found again, by `InitWrite` exactly with the arguments it was created with. -/
theorem run_survives (hrun : Relation.ReflTransGen Step (empty : ShmSystem P) s) :
    (∀ p pr idx object size h st call, s.processes p = some pr → pr.mht idx = some object →
      s.tableOf object.key = some (size, h) → (s.seen object h).table.ValidKey st.key →
      (UcStorage.read st (s.seen object h).table call).1 = 0 →
      ∃ tree, (UcStorage.read st (s.seen object h).table call).2.1.tree = some tree ∧
        StorageState.Rereads (s.logs object.key) st.key tree) ∧
    (∀ key r s', s.tableOf key = some r → Relation.ReflTransGen (StepBeside key) s s' →
      s'.tableOf key = some r ∧ s'.logs key = s.logs key) ∧
    ∀ key size h, s.tableOf key = some (size, h) → ∃ param, s.params key = some param ∧
      ∀ pr : ShmProcess, pr.create_idx < MAX_HT_SHM_NUM →
        (∀ args totalMemory shmget, keyT args.shmkey = key →
          (0 ≤ (MysqlProxy.initWrite s.segments pr args totalMemory shmget).1 ↔
            param.Agrees (args.param totalMemory).withDefaults)) ∧
        ∀ shmkey, keyT shmkey = key → (MysqlProxy.initRead s.segments pr shmkey).1 = 0 ∧
          (MysqlProxy.initRead s.segments pr shmkey).2.mht pr.create_idx =
            some ⟨key, defaultHashFunc⟩ := by
  have hinv := run_inv hrun
  refine ⟨?_, fun key r s' hr hbeside => run_beside hinv hr hbeside, fun key size h htab => ?_⟩
  · intro p pr idx object size h st call hp hidx htab hk hread
    obtain ⟨hhash, -⟩ := hinv.object p pr idx object hp hidx
    obtain ⟨param, hh⟩ := hinv.holds htab
    obtain ⟨m, hm⟩ := hh.log
    rw [seen_eq hhash hh.hash] at hk hread ⊢
    exact hm.reads st call hk hread
  · obtain ⟨param, hh⟩ := hinv.holds htab
    refine ⟨param, hh.created, fun pr hidx => ⟨fun args totalMemory shmget hkey => ?_, ?_⟩⟩
    · have hne : args.shmkey ≠ 0 := by
        intro hzero
        rw [hzero] at hkey
        exact hh.name hkey.symm
      have hseg := tableOf_eq.mp htab
      rw [← hkey, hh.size] at hseg
      exact initWrite_accepts hh.stands hh.large hne hseg hidx totalMemory shmget
    · rintro shmkey rfl
      have hseg := tableOf_eq.mp htab
      rw [hh.size] at hseg
      exact initRead_accepts hh.stands hseg hidx

/-! ## A restart -/

/-- A cache of 4 MB, for keys of up to 239 bytes, in two rows. -/
def restartArgs : InitWriteArgs := ⟨4660, 100, 239, 2, 100, 128, false⟩

def restartTable : MultiHashTable :=
  { smallTable with
    ddwHashNodeNum := 156
    auRowsNodeNum := fun i => [109, 47].getD i 0
    auRowsStartNode := fun i => ([109, 47].take i).sum
    lt := { smallTable.lt with
      ddwAllBlockCount := 16058
      ddwFreeBlockCount := 16058 } }

theorem init_restartTable :
    (restartArgs.param 4194304).withDefaults.initFromBuffer = .ok restartTable := by
  have hbuffer : shmBufferSize 4194304 100 = 4194304 := by decide +kernel
  have hparam : (restartArgs.param 4194304).withDefaults =
      ⟨4660, shmBufferSize 4194304 100, 239, 2, 1, 128, false, none⟩ := rfl
  have hratio : nodeNumRatio2MemSizeRatio 255 128 1 = 1 := by decide
  have hnum : evaluateHashNodeNum 4194304 255 1 = 162 := by decide +kernel
  have hrows : calcNodeNumForEachRow 2 162 = [109, 47] := by decide +kernel
  have hsize : evaluateHashNodeSize 239 = 255 := rfl
  rw [hparam, hbuffer, MhtInitParam.initFromBuffer]
  unfold initFromBuffer
  rw [if_neg (by decide)]
  simp only [hsize, hratio, hnum, hrows]
  rfl

theorem restartTable_created : Created restartTable := by
  refine ⟨_, _, _, _, _, _, _, init_restartTable, ?_, by decide +kernel, by decide⟩
  intro i hi
  have : i = 0 ∨ i = 1 := by
    have : i < 2 := hi
    omega
  rcases this with rfl | rfl <;> decide

/-- A process has set up its cache. -/
def restartState : ShmSystem Bool where
  segments := Function.update (fun _ => none) 4660
    (some ⟨4194304, .table ⟨4194304, 128, 16059, restartTable⟩⟩)
  processes := Function.update (Function.update (fun _ => none) false (some ⟨0, fun _ => none, ""⟩)) false
    (some ⟨1, Function.update (fun _ => none) 0 (some ⟨4660, defaultHashFunc⟩), ""⟩)
  logs := fun _ => []
  params := Function.update (fun _ => none) 4660 (some (restartArgs.param 4194304).withDefaults)

theorem createFromShm_restart : createFromShm (fun _ => none) (restartArgs.param 4194304) none =
    ⟨.ok (), some ⟨4660, defaultHashFunc⟩, restartState.segments⟩ := by
  have hdata : (restartArgs.param 4194304).withDefaults.newData =
      .table ⟨4194304, 128, 16059, restartTable⟩ := by
    have hbuffer : (restartArgs.param 4194304).withDefaults.ddwBufferSize = 4194304 := by
      decide +kernel
    have hcount : (restartArgs.param 4194304).withDefaults.blockCount restartTable.ddwHashNodeNum =
      16059 := by decide +kernel
    rw [MhtInitParam.newData, init_restartTable]
    dsimp only
    rw [hbuffer, hcount]
    rfl
  have hbuffer : (restartArgs.param 4194304).withDefaults.ddwBufferSize = 4194304 := by decide +kernel
  rw [createFromShm, if_neg (by decide +kernel)]
  dsimp only [initFromShm]
  rw [if_neg (by decide), hdata, init_restartTable, hbuffer]
  rfl

theorem restartState_run : Relation.ReflTransGen Step empty restartState := by
  have hstart : Step empty (empty.setProcess false (some ⟨0, fun _ => none, ""⟩)) :=
    ⟨.start false, trivial, rfl⟩
  refine .tail (.single hstart) ⟨.initWrite false restartArgs 4194304 none, ?_, ?_⟩
  · refine ⟨by decide, fun t ht => ?_⟩
    obtain rfl := Except.ok.inj (init_restartTable.symm.trans ht)
    exact restartTable_created
  · have hwrite : MysqlProxy.initWrite
        (empty.setProcess false (some ⟨0, fun _ => none, ""⟩) : ShmSystem Bool).segments
        ⟨0, fun _ => none, ""⟩ restartArgs 4194304 none =
          (0, ⟨1, Function.update (fun _ => none) 0 (some ⟨4660, defaultHashFunc⟩), ""⟩,
            restartState.segments) := by
      show MysqlProxy.initWrite (fun _ => none) _ _ _ _ = _
      rw [MysqlProxy.initWrite]
      dsimp only
      rw [if_neg (by decide), createFromShm_restart]
      rfl
    have hp : (empty.setProcess false (some ⟨0, fun _ => none, ""⟩)).processes false =
      some ⟨0, fun _ => none, ""⟩ := rfl
    have hnew : (empty.setProcess false (some ⟨0, fun _ => none, ""⟩) : ShmSystem Bool).segments
        (keyT restartArgs.shmkey) = none ∧ restartState.segments (keyT restartArgs.shmkey) ≠ none :=
      ⟨rfl, Option.some_ne_none _⟩
    rw [exec, hp, Option.map_some, hwrite]
    dsimp only
    rw [if_pos hnew]
    rfl

/-- Its first block is empty, and there are many. -/
theorem restartTable_not_overruns : ¬ restartTable.lt.Overruns (restartTable.lt.blockCount 7) := by
  rintro ⟨-, -, -, -, -, -, hcount⟩
  have hcard : 1 ≤ restartTable.lt.emptyBlocks.card :=
    Finset.card_pos.mpr ⟨1, Finset.mem_filter.mpr ⟨Finset.mem_Ioo.mpr (by decide), rfl⟩⟩
  have hone : restartTable.lt.blockCount 7 = 1 := by decide
  omega

/-- It has used its cache. -/
def restartUsed (r : StorageState) : ShmSystem Bool :=
  { restartState with
    segments := Function.update restartState.segments 4660
      (some ⟨4194304, .table ⟨4194304, 128, 16059, r.table⟩⟩)
    logs := Function.update restartState.logs 4660 r.log }

theorem restartUsed_step {op : StorageOp} {r : StorageState}
    (hal : StorageState.Allowed ⟨restartTable, []⟩ op)
    (heq : StorageState.exec ⟨restartTable, []⟩ op = some r) :
    Step restartState (restartUsed r) := by
  have htab : restartState.tableOf 4660 = some (4194304, ⟨4194304, 128, 16059, restartTable⟩) := rfl
  have hexec : restartState.exec (.call false 0 op) = some (restartUsed r) := by
    have hobject : (restartState.processes false).bind (fun pr => pr.mht 0) =
      some ⟨4660, defaultHashFunc⟩ := rfl
    have hseen : (restartState.seen ⟨4660, defaultHashFunc⟩
      ⟨4194304, 128, 16059, restartTable⟩).exec op = some r := heq
    rw [exec, hobject, Option.bind_some]
    dsimp only
    rw [htab, Option.bind_some]
    dsimp only
    rw [hseen]
    rfl
  refine ⟨.call false 0 op, fun pr object size h hp hidx htab' => ?_, hexec⟩
  obtain rfl := Option.some.inj hp
  obtain rfl := Option.some.inj hidx
  obtain ⟨-, rfl⟩ := Prod.mk.inj (Option.some.inj (htab.symm.trans htab'))
  exact hal

/-- It writes a tree and exits.  Another process attaches to the cache, and reads the tree. -/
theorem run_survives_restart : ∃ (s : ShmSystem Bool) (object : MhtObject) (h : ShmTable)
    (tree : KnvNode), Relation.ReflTransGen Step empty s ∧ s.processes false = none ∧
    s.tableOf object.key = some (4194304, h) ∧
    (UcStorage.read (.new [1]) (s.seen object h).table ⟨0, 0, true, true⟩).2.1.tree = some tree ∧
    StorageState.Rereads (s.logs object.key) [1] tree := by
  have hexec : ((StorageState.exec ⟨restartTable, []⟩
      (.write StorageState.keyedStorage 0 false)).map fun r =>
        (UcStorage.read (.new [1]) r.table ⟨0, 0, true, true⟩).1) = some 0 := by decide +kernel
  obtain ⟨r, heq, hread⟩ := Option.map_eq_some_iff.mp hexec
  have hvalid : restartTable.ValidKey [1] := by decide
  have hplace : restartTable.place [1] false = (.ok ⟨1, true, 0, none⟩, restartTable) := by rfl
  have hal := StorageState.keyedStorage_allowed hvalid hplace restartTable_not_overruns 0
  -- the call, the exit, and the other process
  let s3 := ((restartUsed r).setProcess false none).setProcess true (some ⟨0, fun _ => none, ""⟩)
  let s4 := s3.setProcess true (some (MysqlProxy.initRead s3.segments ⟨0, fun _ => none, ""⟩ 4660).2)
  have hexit : Step (restartUsed r) ((restartUsed r).setProcess false none) :=
    ⟨.exit false, trivial, rfl⟩
  have hstart : Step ((restartUsed r).setProcess false none) s3 := ⟨.start true, trivial, rfl⟩
  have hinit : Step s3 s4 := ⟨.initRead true 4660, show keyT 4660 ≠ 0 by decide, rfl⟩
  have hrun3 := ((restartState_run.tail (restartUsed_step hal heq)).tail hexit).tail hstart
  have hrun4 := hrun3.tail hinit
  have htab : s3.tableOf 4660 = some (4194304, ⟨4194304, 128, 16059, r.table⟩) :=
    tableOf_eq.mpr (Function.update_self 4660 _ restartState.segments)
  have hsame : s4.tableOf 4660 = s3.tableOf 4660 := tableOf_congr rfl
  have htab4 := hsame.trans htab
  obtain ⟨param, -, hfind⟩ := (run_survives hrun3).2.2 4660 4194304 _ htab
  obtain ⟨-, hidx⟩ := (hfind ⟨0, fun _ => none, ""⟩ (by decide)).2 4660 rfl
  dsimp only at hidx
  have hp : s4.processes true = some (MysqlProxy.initRead s3.segments ⟨0, fun _ => none, ""⟩ 4660).2 :=
    Function.update_self true _ s3.processes
  -- the objects see what was written
  have hshape := (StorageState.step_inv (StorageState.Inv.created restartTable_created)
    ⟨_, hal, heq⟩).1
  have hseen : s4.seen ⟨4660, defaultHashFunc⟩ ⟨4194304, 128, 16059, r.table⟩ = ⟨r.table, r.log⟩ := by
    rw [seen_eq rfl hshape.hash]
    exact congrArg (StorageState.mk r.table) (Function.update_self 4660 _ restartState.logs)
  have hk : (s4.seen ⟨4660, defaultHashFunc⟩ ⟨4194304, 128, 16059, r.table⟩).table.ValidKey
      (UcStorage.new [1]).key := by
    rw [hseen]
    exact hshape.validKey.mpr hvalid
  have hzero : (UcStorage.read (.new [1]) (s4.seen ⟨4660, defaultHashFunc⟩
      ⟨4194304, 128, 16059, r.table⟩).table ⟨0, 0, true, true⟩).1 = 0 := by
    rw [hseen]
    exact hread
  obtain ⟨tree, htree, hrereads⟩ := (run_survives hrun4).1 true _ 0 ⟨4660, defaultHashFunc⟩ 4194304
    ⟨4194304, 128, 16059, r.table⟩ (.new [1]) ⟨0, 0, true, true⟩ hp hidx htab4 hk hzero
  exact ⟨s4, ⟨4660, defaultHashFunc⟩, ⟨4194304, 128, 16059, r.table⟩, tree, hrun4, rfl, htab4, htree,
    hrereads⟩

end ShmSystem

end MysqlProxy
