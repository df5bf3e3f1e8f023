/-
  Tables in shared memory (`CreateFromShm` and `InitFromShm` of `ht/multi_hash_table.cc`,
  `InitExisting` of `ht/link_table.cc`, `open` and `create` of `ht/shm_adapter.cc`).

  A segment outlives the processes that use it.  Whoever comes first creates it and sets up a table in
  it.  Whoever comes later finds it there, and compares: the size of the segment with the one in the
  header, the numbers in the header with the ones in the block store, and, in `CreateFromShm`, those
  with the arguments.

  * `ShmTable.Stands`: what the comparisons look at is what the creator asked for.  No call on the
    table changes any of it (`Stands.anyRun`).
  * `Stands.initFromShm`, `Stands.createFromShm`: so a table can be found again, and is accepted
    exactly with the size, the key length, the number of rows and the block size it was created with.

  Modelling choices.
  * A call is one step.  `shmctl` and `shmat` do not fail on a segment that exists; whether a new one
    can be made is an argument.
  * `key_t` has 32 bits.  `IPC_PRIVATE`, which is 0, is no name of a segment.
  * Where `LinkTable::Init` fails, the head of the block store is still zero.
  * There is memory for the adapter.
-/
import MysqlProxy.Ht.MhtNumbers

namespace MysqlProxy

/-! ## Segments -/

/-- `MhtHeader` with the numbers that only the functions of this module look at, the nodes and the
    block store. -/
structure ShmTable where
  ddwTotalShmSize : Nat
  ddwDataBlockSize : Nat
  ddwDataBlockNum : Nat
  table : MultiHashTable

/-- What `CreateFromShm` and `InitFromShm` read. -/
structure ShmHeader where
  ddwTotalShmSize : Nat
  ddwHashNodeSize : Nat
  ddwRowNum : Nat
  ddwDataBlockSize : Nat
  ddwDataBlockNum : Nat
  /-- The block store behind the nodes. -/
  lt : LinkTable

/-- What is in a segment: zero bytes; a header without a block store, where `InitFromBuffer` failed;
    or a table. -/
inductive ShmData where
  | zeroed
  | headerOnly (ddwTotalShmSize ddwHashNodeSize ddwRowNum ddwDataBlockSize ddwDataBlockNum : Nat)
  | table (h : ShmTable)

/-- A segment, of `shm_segsz` bytes. -/
structure Segment where
  shm_segsz : Nat
  data : ShmData

/-- The segments by their keys. -/
abbrev Segments := Nat → Option Segment

/-- `key_t`. -/
def keyT (ddwShmKey : Nat) : Nat := ddwShmKey % 2 ^ 32

/-- The head and the blocks where all bytes are zero. -/
def LinkTable.zeroed : LinkTable := ⟨0, 0, 0, 0, 0, 0, 0, fun _ => 0, fun _ => ⟨0, 0, []⟩⟩

def ShmData.header : ShmData → ShmHeader
  | .zeroed => ⟨0, 0, 0, 0, 0, .zeroed⟩
  | .headerOnly total nodeSize rowNum blockSize blockNum =>
    ⟨total, nodeSize, rowNum, blockSize, blockNum, .zeroed⟩
  | .table h => ⟨h.ddwTotalShmSize, h.table.ddwHashNodeSize, h.table.ddwRowNum, h.ddwDataBlockSize,
      h.ddwDataBlockNum, h.table.lt⟩

/-! ## Failures -/

/-- The failures of `LinkTable::InitExisting`. -/
inductive LtExistingError where
  | notEnoughBuffer
  | blockCount (existing expected : Nat)
  | blockSize (existing expected : Nat)
  deriving DecidableEq, Repr

/-- The value it returns. -/
def LtExistingError.code : LtExistingError → Int
  | .notEnoughBuffer => -1
  | .blockCount _ _ => -2
  | .blockSize _ _ => -3

/-- The text it leaves in `errmsg`. -/
def LtExistingError.errmsg : LtExistingError → String
  | .notEnoughBuffer => "Bad argument: not enough buffer size"
  | .blockCount existing expected =>
    s!"Total block count mismatched: existing {existing}, expected {expected}"
  | .blockSize existing expected =>
    s!"Block size mismatched: existing {existing}, expected {expected}"

/-- The failures of `InitFromShm` and `CreateFromShm`. -/
inductive ShmError where
  | badArgument (ddwShmKey ddwBufferSize : Nat)
  /-- `open` failed. -/
  | openFailed (err : String)
  | headerSize (size total : Nat)
  | linkTable (e : LtExistingError)
  | sizeMismatched (shm given : Nat)
  | keyLenMismatched (shm given : Nat)
  | rowNumMismatched (shm given : Nat)
  | blockSizeMismatched (shm given : Nat)
  /-- `InitFromShm` failed on a segment that exists. -/
  | existing (e : ShmError)
  /-- `create` failed. -/
  | createFailed (err : String)
  | initFromBuffer (e : MhtError)
  deriving DecidableEq, Repr

/-- The value the failing function returns. -/
def ShmError.code : ShmError → Int
  | .badArgument _ _ => -1
  | .openFailed _ => -100
  | .headerSize _ _ => -4
  | .linkTable _ => -5
  | .sizeMismatched _ _ => -2
  | .keyLenMismatched _ _ => -3
  | .rowNumMismatched _ _ => -4
  | .blockSizeMismatched _ _ => -5
  | .existing _ => -6
  | .createFailed _ => -2
  | .initFromBuffer e => e.code

/-- The text it leaves in `errmsg`. -/
def ShmError.errmsg : ShmError → String
  | .badArgument ddwShmKey ddwBufferSize =>
    s!"Bad argument, ShmKey({ddwShmKey}) and BufferSize({ddwBufferSize}) must be given"
  | .openFailed err => "Failed to open shm: " ++ err
  | .headerSize size total => s!"Error: shm size {size} differs from size in header {total}"
  | .linkTable e => s!"LinkTable Init failed (ret={e.code}): {e.errmsg}"
  | .sizeMismatched shm given => s!"Shm size mismatched: shm {shm}, given {given}"
  | .keyLenMismatched shm given => s!"Max key length mismatched: shm {shm}, given {given}"
  | .rowNumMismatched shm given => s!"Hash row num mismatched: shm {shm}, given {given}"
  | .blockSizeMismatched shm given => s!"Data block size mismatched: shm {shm}, given {given}"
  | .existing e => e.errmsg
  | .createFailed err => "Failed to create shm: " ++ err
  | .initFromBuffer e => e.errmsg

theorem ShmError.code_neg (e : ShmError) : e.code < 0 := by
  cases e with
  | initFromBuffer e => exact e.code_neg
  | _ => simp [ShmError.code]

/-! ## The calls -/

/-- `LinkTable::InitExisting`. -/
def LinkTable.initExisting (t : LinkTable) (ddwBufferSize ddwBlockCount ddwBlockSize : Nat) :
    Except LtExistingError Unit :=
  if ddwBufferSize < evalBufferSize ddwBlockCount ddwBlockSize then .error .notEnoughBuffer
  else if t.ddwAllBlockCount ≠ dec64 ddwBlockCount then
    .error (.blockCount t.ddwAllBlockCount (dec64 ddwBlockCount))
  else if t.ddwBlockSize ≠ ddwBlockSize then .error (.blockSize t.ddwBlockSize ddwBlockSize)
  else .ok ()

def DEFAULT_MAX_KEY_LENGTH : Nat := 8
def DEFAULT_ROW_NUM : Nat := 20
def DEFAULT_INDEX_RATIO : Nat := 50
def DEFAULT_BLOCK_SIZE : Nat := 128

/-- `MhtInitParam`; without a hash function it is `DefaultHashFunc`. -/
structure MhtInitParam where
  ddwShmKey : Nat
  ddwBufferSize : Nat
  wMaxKeyLen : Nat
  wRowNum : Nat
  dwIndexRatio : Nat
  ddwBlockSize : Nat
  bUseAccessSeq : Bool
  hashFunc : Option (List UInt8 → UInt32)

/-- The parameters with the defaults in the place of zeros. -/
def MhtInitParam.withDefaults (param : MhtInitParam) : MhtInitParam :=
  { param with
    wMaxKeyLen := if param.wMaxKeyLen = 0 then DEFAULT_MAX_KEY_LENGTH else param.wMaxKeyLen
    wRowNum := if param.wRowNum = 0 then DEFAULT_ROW_NUM else param.wRowNum
    dwIndexRatio := if param.dwIndexRatio = 0 then DEFAULT_INDEX_RATIO else param.dwIndexRatio
    ddwBlockSize := if param.ddwBlockSize = 0 then DEFAULT_BLOCK_SIZE else param.ddwBlockSize }

/-- The `MultiHashTable` object of a process: the segment it is attached to, and `hashfunc`. -/
structure MhtObject where
  key : Nat
  hashfunc : List UInt8 → UInt32

/-- `InitFromShm`: the object, and the header it finds. -/
def initFromShm (segs : Segments) (ddwShmKey : Nat) (hashFunc : Option (List UInt8 → UInt32)) :
    Except ShmError (MhtObject × ShmHeader) :=
  match segs (keyT ddwShmKey) with
  | none => .error (.openFailed "shmget failed - No such file or directory")
  | some seg =>
    let header := seg.data.header
    if header.ddwTotalShmSize ≠ seg.shm_segsz then
      .error (.headerSize seg.shm_segsz header.ddwTotalShmSize)
    else
      match header.lt.initExisting
          (LinkTable.evalBufferSize header.ddwDataBlockNum header.ddwDataBlockSize)
          header.ddwDataBlockNum header.ddwDataBlockSize with
      | .error e => .error (.linkTable e)
      | .ok () => .ok (⟨keyT ddwShmKey, hashFunc.getD defaultHashFunc⟩, header)

/-- A table that exists is checked against the parameters. -/
def ShmHeader.check (header : ShmHeader) (param : MhtInitParam) : Except ShmError Unit :=
  if param.ddwBufferSize ≠ header.ddwTotalShmSize then
    .error (.sizeMismatched header.ddwTotalShmSize param.ddwBufferSize)
  else if param.wMaxKeyLen ≠ header.ddwHashNodeSize - sizeofMhtNode then
    .error (.keyLenMismatched (header.ddwHashNodeSize - sizeofMhtNode) param.wMaxKeyLen)
  else if param.wRowNum ≠ header.ddwRowNum then
    .error (.rowNumMismatched header.ddwRowNum param.wRowNum)
  else if param.ddwBlockSize ≠ header.ddwDataBlockSize then
    .error (.blockSizeMismatched header.ddwDataBlockSize param.ddwBlockSize)
  else .ok ()

/-- `ddwBlockCount` of `InitFromBuffer`, for rows of `ddwHashNodeNum` nodes. -/
def MhtInitParam.blockCount (param : MhtInitParam) (ddwHashNodeNum : Nat) : Nat :=
  MultiHashTable.evalBlockCount
    (sub64 (sub64 param.ddwBufferSize sizeofMhtHeader)
      (ddwHashNodeNum * MultiHashTable.evaluateHashNodeSize param.wMaxKeyLen)) param.ddwBlockSize

/-- `InitFromBuffer` with the parameters. -/
def MhtInitParam.initFromBuffer (param : MhtInitParam) : Except MhtError MultiHashTable :=
  MultiHashTable.initFromBuffer param.ddwBufferSize param.wMaxKeyLen param.wRowNum
    param.dwIndexRatio param.ddwBlockSize (param.hashFunc.getD defaultHashFunc) param.bUseAccessSeq

/-- What `InitFromBuffer` leaves in a new segment. -/
def MhtInitParam.newData (param : MhtInitParam) : ShmData :=
  match param.initFromBuffer with
  | .error (.linkTableInit _) =>
    let ddwHashNodeSize := MultiHashTable.evaluateHashNodeSize param.wMaxKeyLen
    let ddwHashNodeNum := (calcNodeNumForEachRow param.wRowNum
      (MultiHashTable.evaluateHashNodeNum param.ddwBufferSize ddwHashNodeSize
        (MultiHashTable.nodeNumRatio2MemSizeRatio ddwHashNodeSize param.ddwBlockSize
          param.dwIndexRatio))).sum
    .headerOnly param.ddwBufferSize ddwHashNodeSize param.wRowNum param.ddwBlockSize
      (param.blockCount ddwHashNodeNum)
  | .error _ => .zeroed
  | .ok t => .table ⟨param.ddwBufferSize, param.ddwBlockSize, param.blockCount t.ddwHashNodeNum, t⟩

/-- What a call of `CreateFromShm` returns, what the object is attached to, and the segments. -/
structure ShmCreated where
  result : Except ShmError Unit
  object : Option MhtObject
  segments : Segments

/-- `CreateFromShm`.  `shmget` is the text of the error that a new segment fails with, if it does. -/
def createFromShm (segs : Segments) (user_param : MhtInitParam) (shmget : Option String) :
    ShmCreated :=
  if user_param.ddwShmKey = 0 ∨
      user_param.ddwBufferSize < sizeofMhtHeader + sizeofLinkTableHead + 1024 then
    ⟨.error (.badArgument user_param.ddwShmKey user_param.ddwBufferSize), none, segs⟩
  else
    let param := user_param.withDefaults
    match initFromShm segs param.ddwShmKey param.hashFunc with
    | .ok (object, header) => ⟨header.check param, some object, segs⟩
    | .error e =>
      if e.code ≠ -100 then ⟨.error (.existing e), none, segs⟩
      else
        match shmget with
        | some err => ⟨.error (.createFailed err), none, segs⟩
        | none =>
          let segs' := Function.update segs (keyT param.ddwShmKey)
            (some ⟨param.ddwBufferSize, param.newData⟩)
          match param.initFromBuffer with
          | .error e => ⟨.error (.initFromBuffer e), none, segs'⟩
          | .ok _ =>
            ⟨.ok (), some ⟨keyT param.ddwShmKey, param.hashFunc.getD defaultHashFunc⟩, segs'⟩

/-! ## A table is found again -/

/-- The table stands as it was created with the parameters. -/
structure ShmTable.Stands (h : ShmTable) (param : MhtInitParam) : Prop where
  total : h.ddwTotalShmSize = param.ddwBufferSize
  keyLen : h.table.ddwHashNodeSize = MultiHashTable.evaluateHashNodeSize param.wMaxKeyLen
  rowNum : h.table.ddwRowNum = param.wRowNum
  blockSize : h.ddwDataBlockSize = param.ddwBlockSize
  size : h.table.lt.ddwBlockSize = h.ddwDataBlockSize
  all : h.table.lt.ddwAllBlockCount = dec64 h.ddwDataBlockNum

/-- The arguments agree in what is compared: the index ratio and the access sequence are not. -/
structure MhtInitParam.Agrees (param param' : MhtInitParam) : Prop where
  bufferSize : param'.ddwBufferSize = param.ddwBufferSize
  maxKeyLen : param'.wMaxKeyLen = param.wMaxKeyLen
  rowNum : param'.wRowNum = param.wRowNum
  blockSize : param'.ddwBlockSize = param.ddwBlockSize

namespace ShmTable

variable {h : ShmTable} {param param' : MhtInitParam} {t : MultiHashTable}

/-- A new table. -/
theorem stands_new (hinit : param.initFromBuffer = .ok t) :
    Stands ⟨param.ddwBufferSize, param.ddwBlockSize, param.blockCount t.ddwHashNodeNum, t⟩ param := by
  rw [MhtInitParam.initFromBuffer, MultiHashTable.initFromBuffer] at hinit
  split at hinit
  · cases hinit
  dsimp only at hinit
  split at hinit
  · cases hinit
  rename_i lt hlt
  cases hinit
  rw [LinkTable.init] at hlt
  split at hlt
  · cases hlt
  cases hlt
  exact ⟨rfl, rfl, rfl, rfl, rfl, rfl⟩

theorem hashfunc_new (hinit : param.initFromBuffer = .ok t) :
    t.hashfunc = param.hashFunc.getD defaultHashFunc := by
  rw [MhtInitParam.initFromBuffer, MultiHashTable.initFromBuffer] at hinit
  split at hinit
  · cases hinit
  dsimp only at hinit
  split at hinit
  · cases hinit
  · cases hinit
    rfl

/-- **No call on the table changes what is compared.** -/
theorem Stands.anyRun (hs : h.Stands param) (hrun : MultiHashTable.AnyRun h.table t) :
    Stands { h with table := t } param := by
  have hshape := hrun.shape
  have hnum := hrun.numbers
  exact ⟨hs.total, hshape.size.trans hs.keyLen, hshape.rowNum.trans hs.rowNum, hs.blockSize,
    hnum.size.trans hs.size, hnum.all.trans hs.all⟩

variable {segs : Segments} {ddwShmKey : Nat}

/-- **The table is found again.** -/
theorem Stands.initFromShm (hs : h.Stands param)
    (hseg : segs (keyT ddwShmKey) = some ⟨param.ddwBufferSize, .table h⟩)
    (hashFunc : Option (List UInt8 → UInt32)) : MysqlProxy.initFromShm segs ddwShmKey hashFunc =
      .ok (⟨keyT ddwShmKey, hashFunc.getD defaultHashFunc⟩, (ShmData.table h).header) := by
  rw [MysqlProxy.initFromShm, hseg]
  dsimp only [ShmData.header]
  rw [if_neg (not_not_intro hs.total)]
  have hexisting : h.table.lt.initExisting
      (LinkTable.evalBufferSize h.ddwDataBlockNum h.ddwDataBlockSize) h.ddwDataBlockNum
      h.ddwDataBlockSize = .ok () := by
    rw [LinkTable.initExisting, if_neg (Nat.lt_irrefl _), if_neg (not_not_intro hs.all),
      if_neg (not_not_intro hs.size)]
  rw [hexisting]

theorem Stands.check (hs : h.Stands param) :
    ((ShmData.table h).header.check param' = .ok () ↔ param.Agrees param') := by
  have hlen : h.table.ddwHashNodeSize - sizeofMhtNode = param.wMaxKeyLen := by
    rw [hs.keyLen, MultiHashTable.evaluateHashNodeSize]
    omega
  rw [ShmHeader.check, ShmData.header, hs.total, hs.rowNum, hs.blockSize, hlen]
  constructor
  · intro hok
    split at hok
    · cases hok
    rename_i hbuf
    split at hok
    · cases hok
    rename_i hkey
    split at hok
    · cases hok
    rename_i hrow
    split at hok
    · cases hok
    rename_i hblock
    exact ⟨not_not.mp hbuf, not_not.mp hkey, not_not.mp hrow, not_not.mp hblock⟩
  · rintro ⟨hbuf, hkey, hrow, hblock⟩
    rw [if_neg (not_not_intro hbuf), if_neg (not_not_intro hkey), if_neg (not_not_intro hrow),
      if_neg (not_not_intro hblock)]

/-- **A table that exists is left as it is**, and accepted if the arguments agree with those it was
    created with. -/
theorem Stands.createFromShm (hs : h.Stands param) (hkey : param'.ddwShmKey ≠ 0)
    (hsize : sizeofMhtHeader + sizeofLinkTableHead + 1024 ≤ param'.ddwBufferSize)
    (hseg : segs (keyT param'.ddwShmKey) = some ⟨param.ddwBufferSize, .table h⟩)
    (shmget : Option String) :
    (MysqlProxy.createFromShm segs param' shmget).segments = segs ∧
      ((MysqlProxy.createFromShm segs param' shmget).result = .ok () ↔
        param.Agrees param'.withDefaults) ∧
      (MysqlProxy.createFromShm segs param' shmget).object =
        some ⟨keyT param'.ddwShmKey, param'.hashFunc.getD defaultHashFunc⟩ := by
  have hinit : MysqlProxy.initFromShm segs param'.withDefaults.ddwShmKey param'.withDefaults.hashFunc = _ :=
    hs.initFromShm hseg param'.hashFunc
  rw [MysqlProxy.createFromShm, if_neg (by omega)]
  dsimp only
  rw [hinit]
  exact ⟨rfl, hs.check, rfl⟩

end ShmTable

theorem initFromShm_absent {segs : Segments} {ddwShmKey : Nat} (hseg : segs (keyT ddwShmKey) = none)
    (hashFunc : Option (List UInt8 → UInt32)) :
    ∃ e, initFromShm segs ddwShmKey hashFunc = .error e ∧ e.code = -100 := by
  rw [initFromShm, hseg]
  exact ⟨_, rfl, rfl⟩

/-- **A segment that does not exist** is created, with a table in it or without. -/
theorem createFromShm_absent {segs : Segments} {user_param : MhtInitParam}
    (hseg : segs (keyT user_param.ddwShmKey) = none) (shmget : Option String) :
    (∃ e, createFromShm segs user_param shmget = ⟨.error e, none, segs⟩) ∨
    sizeofMhtHeader + sizeofLinkTableHead + 1024 ≤ user_param.ddwBufferSize ∧
      (createFromShm segs user_param shmget).segments =
        Function.update segs (keyT user_param.ddwShmKey)
          (some ⟨user_param.ddwBufferSize, user_param.withDefaults.newData⟩) ∧
      ((∃ e, user_param.withDefaults.initFromBuffer = .error e ∧
          (createFromShm segs user_param shmget).object = none) ∨
        ∃ t, user_param.withDefaults.initFromBuffer = .ok t ∧
          (createFromShm segs user_param shmget).object =
            some ⟨keyT user_param.ddwShmKey, user_param.hashFunc.getD defaultHashFunc⟩) := by
  obtain ⟨e, hopen, hcode⟩ : ∃ e, initFromShm segs user_param.withDefaults.ddwShmKey
      user_param.withDefaults.hashFunc = .error e ∧ e.code = -100 := initFromShm_absent hseg _
  rw [createFromShm]
  split
  · exact .inl ⟨_, rfl⟩
  rename_i hargs
  dsimp only
  rw [hopen]
  dsimp only
  rw [if_neg (not_not_intro hcode)]
  cases shmget with
  | some err => exact .inl ⟨_, rfl⟩
  | none =>
    refine .inr ⟨by omega, ?_⟩
    dsimp only
    cases hinit : user_param.withDefaults.initFromBuffer with
    | error e => exact ⟨rfl, .inl ⟨e, rfl, rfl⟩⟩
    | ok t => exact ⟨rfl, .inr ⟨t, rfl, rfl⟩⟩

/-! ## A table that could not be set up -/

/-- `InitFromBuffer` has failed in the segment. -/
def Segment.Unfinished (seg : Segment) : Prop :=
  match seg.data with
  | .zeroed => seg.shm_segsz ≠ 0
  | .headerOnly _ _ _ ddwDataBlockSize _ => ddwDataBlockSize ≠ 0
  | .table _ => False

theorem unfinished_new {param : MhtInitParam} (hsize : param.ddwBufferSize ≠ 0) {e : MhtError}
    (h : param.initFromBuffer = .error e) : Segment.Unfinished ⟨param.ddwBufferSize, param.newData⟩ := by
  cases e with
  | linkTableInit e =>
    have hblock : param.ddwBlockSize ≠ 0 := by
      rw [MhtInitParam.initFromBuffer, MultiHashTable.initFromBuffer] at h
      split at h
      · cases h
      · omega
    rw [Segment.Unfinished, MhtInitParam.newData, h]
    exact hblock
  | _ =>
    rw [Segment.Unfinished, MhtInitParam.newData, h]
    exact hsize

variable {segs : Segments} {seg : Segment} {ddwShmKey : Nat}

/-- It cannot be opened. -/
theorem Segment.Unfinished.initFromShm (hu : seg.Unfinished)
    (hseg : segs (keyT ddwShmKey) = some seg) (hashFunc : Option (List UInt8 → UInt32)) :
    ∃ e, MysqlProxy.initFromShm segs ddwShmKey hashFunc = .error e ∧ e.code ≠ -100 := by
  obtain ⟨size, data⟩ := seg
  rw [MysqlProxy.initFromShm, hseg]
  cases data with
  | table h => exact hu.elim
  | zeroed =>
    dsimp only [ShmData.header]
    rw [if_pos (Ne.symm hu)]
    exact ⟨_, rfl, by simp [ShmError.code]⟩
  | headerOnly total nodeSize rowNum blockSize blockNum =>
    dsimp only [ShmData.header]
    by_cases htotal : total ≠ size
    · rw [if_pos htotal]
      exact ⟨_, rfl, by simp [ShmError.code]⟩
    · rw [if_neg htotal]
      have hexisting : ∃ e, LinkTable.zeroed.initExisting (LinkTable.evalBufferSize blockNum blockSize)
          blockNum blockSize = .error e := by
        rw [LinkTable.initExisting, if_neg (Nat.lt_irrefl _)]
        split
        · exact ⟨_, rfl⟩
        · have hne : LinkTable.zeroed.ddwBlockSize ≠ blockSize := Ne.symm hu
          rw [if_pos hne]
          exact ⟨_, rfl⟩
      obtain ⟨e, he⟩ := hexisting
      rw [he]
      exact ⟨_, rfl, by simp [ShmError.code]⟩

/-- Nor is it set up again. -/
theorem Segment.Unfinished.createFromShm {param : MhtInitParam} (hu : seg.Unfinished)
    (hseg : segs (keyT param.ddwShmKey) = some seg) (shmget : Option String) :
    ∃ e, MysqlProxy.createFromShm segs param shmget = ⟨.error e, none, segs⟩ := by
  rw [MysqlProxy.createFromShm]
  split
  · exact ⟨_, rfl⟩
  · obtain ⟨e, he, hcode⟩ := hu.initFromShm hseg param.hashFunc
    have he' : MysqlProxy.initFromShm segs param.withDefaults.ddwShmKey param.withDefaults.hashFunc =
      .error e := he
    dsimp only
    rw [he']
    exact ⟨_, if_pos hcode⟩

/-! ## What a call leaves -/

/-- What `CreateFromShm` leaves in a segment: a table as it was created, or none if it could not be set
    up. -/
def Segment.Made (seg : Segment) : Prop :=
  seg.Unfinished ∨ ∃ h param, seg = ⟨param.ddwBufferSize, .table h⟩ ∧ h.Stands param

/-- **The segments after a call**: as they were, or there is a new one.  An object that is attached is
    attached to a table. -/
theorem createFromShm_cases {user_param : MhtInitParam}
    (hmade : ∀ seg, segs (keyT user_param.ddwShmKey) = some seg → seg.Made)
    (shmget : Option String) :
    ((createFromShm segs user_param shmget).segments = segs ∨
      segs (keyT user_param.ddwShmKey) = none ∧
        sizeofMhtHeader + sizeofLinkTableHead + 1024 ≤ user_param.ddwBufferSize ∧
        (createFromShm segs user_param shmget).segments =
          Function.update segs (keyT user_param.ddwShmKey)
            (some ⟨user_param.ddwBufferSize, user_param.withDefaults.newData⟩)) ∧
    ∀ object, (createFromShm segs user_param shmget).object = some object →
      object = ⟨keyT user_param.ddwShmKey, user_param.hashFunc.getD defaultHashFunc⟩ ∧
        ∃ size h, (createFromShm segs user_param shmget).segments object.key =
          some ⟨size, .table h⟩ := by
  cases hseg : segs (keyT user_param.ddwShmKey) with
  | none =>
    rcases createFromShm_absent hseg shmget with ⟨e, he⟩ | ⟨hlarge, hsegs, hobject⟩
    · rw [he]
      exact ⟨.inl rfl, nofun⟩
    · refine ⟨.inr ⟨rfl, hlarge, hsegs⟩, fun object hsome => ?_⟩
      rcases hobject with ⟨e, -, hnone⟩ | ⟨t, hinit, hok⟩
      · cases hnone.symm.trans hsome
      · obtain rfl := Option.some.inj (hok.symm.trans hsome)
        refine ⟨rfl, user_param.ddwBufferSize,
          ⟨user_param.ddwBufferSize, user_param.withDefaults.ddwBlockSize,
            user_param.withDefaults.blockCount t.ddwHashNodeNum, t⟩, ?_⟩
        rw [hsegs, Function.update_self, MhtInitParam.newData, hinit]
        rfl
  | some seg =>
    rcases hmade seg hseg with hu | ⟨h, param, rfl, hs⟩
    · obtain ⟨e, he⟩ := hu.createFromShm hseg shmget
      rw [he]
      exact ⟨.inl rfl, nofun⟩
    · by_cases hargs : user_param.ddwShmKey = 0 ∨
          user_param.ddwBufferSize < sizeofMhtHeader + sizeofLinkTableHead + 1024
      · rw [createFromShm, if_pos hargs]
        exact ⟨.inl rfl, nofun⟩
      · have hkey : user_param.ddwShmKey ≠ 0 := by omega
        obtain ⟨hsegs, -, hobject⟩ := hs.createFromShm hkey (by omega) hseg shmget
        refine ⟨.inl hsegs, fun object hsome => ?_⟩
        obtain rfl := Option.some.inj (hobject.symm.trans hsome)
        exact ⟨rfl, param.ddwBufferSize, h, by rw [hsegs]; exact hseg⟩

end MysqlProxy
